import DistSys.Raft.Vote

/-!
# Replication and snapshots (`append.go`, `Start` and `doLeader`, `Snapshot`)

As in `Vote`, `sendAppendEntries` and `handleInstallSnapshot` are the parts of these goroutines
after the call; what they do before it is in `Task.rpc` of `Cluster`.
-/

namespace DistSys.Raft

variable {n : ℕ} {C : Type} [Inhabited C]

/-! ## The leader's side -/

/-- `Start`: the index and term of the new entry, `none` when the server is not the leader. -/
def start (rf : Raft n C) (command : C) : Raft n C × Option (ℕ × ℤ) :=
  if rf.state ≠ .leader then (rf, none)
  else
    let newLogEntry : LogEntry C := { term := rf.currentTerm, command := command }
    let rf := { rf with log := rf.log ++ [newLogEntry] }
    let rf :=
      ({ rf with
          nextIndex := Function.update rf.nextIndex rf.me (rf.virtualLogIdx rf.log.length) }).persist
    (rf, some (rf.virtualLogIdx (rf.log.length - 1), rf.currentTerm))

/-- A goroutine that `doLeader` starts. `args.entries` is what its slice shows. -/
inductive Task (n : ℕ) (C : Type)
  | sendAppendEntries (args : AppendEntriesArgs n C)
  | handleInstallSnapshot
  deriving DecidableEq, Repr

/-- The body of the loop of `doLeader` for peer `i`. -/
def doLeaderFor (rf : Raft n C) (i : Fin n) : Option (Fin n × Task n C) :=
  let prevLogIndex := rf.nextIndex i - 1
  if prevLogIndex < rf.lastIncludedIndex then some (i, .handleInstallSnapshot)
  else do
    let entries :=
      if rf.lastLogIdx > prevLogIndex then rf.log.drop (rf.realLogIdx (prevLogIndex + 1)).toNat
      else []
    let prev ← rf.logAt prevLogIndex
    some (i, .sendAppendEntries
      { term := rf.currentTerm
        leaderId := rf.me
        prevLogIndex := prevLogIndex
        prevLogTerm := prev.term
        entries := entries
        leaderCommit := rf.commitIndex })

/-- `doLeader`: one goroutine for each peer. -/
def doLeader (rf : Raft n C) : Option (List (Fin n × Task n C)) :=
  rf.otherPeers.mapM rf.doLeaderFor

/-- The loop that moves `nextIndex` back on a rejection, at `i` where the argument is `i + 1`;
`next` is `rf.nextIndex[server]` before it. -/
def backup (rf : Raft n C) (next : ℕ) : ℕ → Option ℕ
  | 0 => some next
  | i + 1 =>
    if i < rf.lastIncludedIndex then some rf.lastIncludedIndex
    else do
      let e ← rf.logAt i
      let e' ← rf.logAt (next - 1)
      if e.term < e'.term then some (i + 1)
      else if i = rf.lastIncludedIndex then some rf.lastIncludedIndex
      else rf.backup next i

/-- The loop that counts the servers known to hold index `N`. -/
def countPeers (rf : Raft n C) (N : ℕ) : List (Fin n) → ℕ → Option ℕ
  | [], count => some count
  | i :: is, count =>
    if rf.matchIndex i ≥ N then do
      let e ← rf.logAt N
      rf.countPeers N is (if e.term = rf.currentTerm then count + 1 else count)
    else rf.countPeers N is count

/-- The loop that looks for a new `commitIndex`, at `N`. -/
def advanceCommit (rf : Raft n C) : ℕ → Option (Raft n C)
  | 0 => some rf
  | N + 1 =>
    if N + 1 > rf.commitIndex then do
      let count ← rf.countPeers (N + 1) rf.otherPeers 1
      if count > n / 2 then some ({ rf with commitIndex := N + 1 }).signal
      else rf.advanceCommit N
    else some rf

/-- The rest of `sendAppendEntries` once the call has returned. A success is counted whatever
`rf.state` is. -/
def sendAppendEntries (rf : Raft n C) (server : Fin n) (args : AppendEntriesArgs n C)
    (reply : AppendEntriesReply) : Option (Raft n C) :=
  if reply.term = 0 ∧ ¬ reply.success then some rf
  else if args.term < rf.currentTerm then some rf
  else if ¬ reply.success then
    if reply.term > rf.currentTerm then
      some ({ rf with
        state := .follower
        currentTerm := reply.term
        votedFor := none
        voteCount := 0 }).persist
    else if reply.term = rf.currentTerm ∧ rf.state = .leader then do
      let next ← rf.backup (rf.nextIndex server) (rf.nextIndex server)
      some { rf with nextIndex := Function.update rf.nextIndex server next }
    else some rf
  else
    let matched := args.prevLogIndex + args.entries.length
    let rf :=
      { rf with
        matchIndex := Function.update rf.matchIndex server matched
        nextIndex := Function.update rf.nextIndex server (matched + 1) }
    rf.advanceCommit rf.lastLogIdx

/-- The rest of `handleInstallSnapshot` once a call has succeeded. -/
def handleInstallSnapshot (rf : Raft n C) (server : Fin n) (reply : InstallSnapshotReply) :
    Raft n C :=
  if reply.term = 0 then rf
  else if reply.term > rf.currentTerm then
    ({ rf with currentTerm := reply.term, state := .follower, votedFor := none }).persist
  else { rf with nextIndex := Function.update rf.nextIndex server (rf.virtualLogIdx 1) }

/-- The arguments of `InstallSnapshot`. -/
def installSnapshotArgs (rf : Raft n C) : Option (InstallSnapshotArgs n C) := do
  let first ← rf.log.head?
  some
    { term := rf.currentTerm
      leaderId := rf.me
      lastIncludedIndex := rf.lastIncludedIndex
      lastIncludedTerm := rf.lastIncludedTerm
      data := rf.snapShot
      lastIncludedCmd := first.command }

/-! ## The follower's side -/

/-- The loop of `AppendEntries` over the new entries; `ridx` is the position in `log` of the first
of them. -/
def mergeEntries (log : List (LogEntry C)) : ℕ → List (LogEntry C) → List (LogEntry C)
  | _, [] => log
  | ridx, e :: es =>
    match log[ridx]? with
    | some e' => if e'.term ≠ e.term then log.take ridx ++ e :: es else mergeEntries log (ridx + 1) es
    | none => if ridx = log.length then log ++ e :: es else mergeEntries log (ridx + 1) es

/-- Adopting a newer term in `AppendEntries`. -/
def adoptTerm (rf : Raft n C) (term : ℤ) : Raft n C :=
  if term > rf.currentTerm then
    { rf with currentTerm := term, votedFor := none, state := .follower }
  else rf

/-- The end of `AppendEntries`: follow the leader's `commitIndex` as far as the log goes. -/
def followCommit (rf : Raft n C) (leaderCommit : ℕ) : Raft n C :=
  if leaderCommit > rf.commitIndex then
    ({ rf with commitIndex := min leaderCommit (rf.virtualLogIdx (rf.log.length - 1)) }).signal
  else rf

/-- `AppendEntries` once the request has passed its checks. -/
def acceptEntries (rf : Raft n C) (args : AppendEntriesArgs n C) : Raft n C :=
  let rf :=
    if args.entries.length ≠ 0 then
      let ridx := (rf.realLogIdx args.prevLogIndex).toNat + 1
      ({ rf with log := mergeEntries rf.log ridx args.entries }).persist
    else rf
  rf.followCommit args.leaderCommit

/-- `AppendEntries`. The reply carries the term from before the request. -/
def appendEntries (rf : Raft n C) (args : AppendEntriesArgs n C) :
    Option (Raft n C × AppendEntriesReply) :=
  let reply (success : Bool) : AppendEntriesReply := { term := rf.currentTerm, success := success }
  if args.term < rf.currentTerm then some (rf, reply false)
  else
    let rf := (rf.adoptTerm args.term).persist
    if args.prevLogIndex < rf.lastIncludedIndex then some (rf, reply false)
    else if args.prevLogIndex ≥ rf.virtualLogIdx rf.log.length then some (rf, reply false)
    else do
      let prev ← rf.logAt args.prevLogIndex
      if prev.term ≠ args.prevLogTerm then some (rf, reply false)
      else some (rf.acceptEntries args, reply true)

/-- The loop of `InstallSnapshot` that looks for the snapshot's last entry in the log, from
position `rIdx` on; `base` is `rf.lastIncludedIndex`. -/
def findEntry (base index : ℕ) (term : ℤ) : ℕ → List (LogEntry C) → Option ℕ
  | _, [] => none
  | rIdx, e :: es =>
    if rIdx + base = index ∧ e.term = term then some rIdx
    else findEntry base index term (rIdx + 1) es

/-- The log after `InstallSnapshot`. The placeholder of an emptied log has the term of the server's
own previous snapshot. -/
def installedLog (rf : Raft n C) (args : InstallSnapshotArgs n C) : List (LogEntry C) :=
  match findEntry rf.lastIncludedIndex args.lastIncludedIndex args.lastIncludedTerm 0 rf.log with
  | some rIdx => rf.log.drop rIdx
  | none => [{ term := rf.lastIncludedTerm, command := args.lastIncludedCmd }]

/-- The emptied log is a slice of a new array. -/
def installedArray (rf : Raft n C) (args : InstallSnapshotArgs n C) : ℕ :=
  match findEntry rf.lastIncludedIndex args.lastIncludedIndex args.lastIncludedTerm 0 rf.log with
  | some _ => rf.array
  | none => rf.array + 1

/-- `InstallSnapshot`. -/
def installSnapshot (rf : Raft n C) (args : InstallSnapshotArgs n C) :
    Raft n C × InstallSnapshotReply :=
  if args.term < rf.currentTerm then (rf, { term := rf.currentTerm, shouldDie := true })
  else
    let rf :=
      if args.term > rf.currentTerm then { rf with currentTerm := args.term, votedFor := none }
      else rf
    let msg : ApplyMsg C :=
      { snapshotValid := true
        snapshot := args.data
        snapshotTerm := args.lastIncludedTerm
        snapshotIndex := args.lastIncludedIndex }
    (({ rf with
        state := .follower
        log := rf.installedLog args
        array := rf.installedArray args
        snapShot := args.data
        lastIncludedIndex := args.lastIncludedIndex
        lastIncludedTerm := args.lastIncludedTerm
        commitIndex := max rf.commitIndex args.lastIncludedIndex
        lastApplied := args.lastIncludedIndex
        snapSenders := rf.snapSenders ++ [msg] }).persist,
      { term := rf.currentTerm, shouldDie := false })

/-- `Snapshot`: the service has a snapshot up to `index`. -/
def snapshot (rf : Raft n C) (index : ℕ) (data : Data) : Option (Raft n C) :=
  if index ≤ rf.lastIncludedIndex ∨ index > rf.commitIndex then some rf
  else if rf.realLogIdx index > rf.log.length then some rf
  else do
    let e ← rf.logAt index
    some ({ rf with
      snapShot := data
      lastIncludedTerm := e.term
      log := rf.log.drop (rf.realLogIdx index).toNat
      lastIncludedIndex := index
      lastApplied := max rf.lastApplied index }).persist

/-! ## `CommitChecker` -/

/-- The loop that fills the buffer, for `fuel` more rounds at `tmpApplied`. -/
def collect (rf : Raft n C) : ℕ → ℕ → Option (List (ApplyMsg C))
  | 0, _ => some []
  | fuel + 1, tmpApplied =>
    let tmpApplied := tmpApplied + 1
    if tmpApplied ≤ rf.lastIncludedIndex then rf.collect fuel tmpApplied
    else if rf.realLogIdx tmpApplied ≥ rf.log.length then some []
    else do
      let e ← rf.logAt tmpApplied
      let msgBuf ← rf.collect fuel tmpApplied
      some ({ commandValid := true
              command := e.command
              commandIndex := tmpApplied
              commandTerm := e.term } :: msgBuf)

/-- The buffer of `CommitChecker`; a negative capacity of `make` is a panic. -/
def fillBuffer (rf : Raft n C) : Option (List (ApplyMsg C)) :=
  if rf.commitIndex < rf.lastApplied then none
  else rf.collect (rf.commitIndex - rf.lastApplied) rf.lastApplied

/-- The next step of the goroutine of `CommitChecker`, and what it sends on `applyCh`. It blocks
while it waits for `commitCh`. -/
def commitChecker (rf : Raft n C) : Option (Raft n C × Option (ApplyMsg C)) :=
  match rf.checker with
  | .loop => some ({ rf with checker := .waiting }, none)
  | .waiting => none
  | .woken => do
    let msgBuf ← rf.fillBuffer
    some ({ rf with checker := .sending msgBuf }, none)
  | .sending [] => some ({ rf with checker := .loop }, none)
  | .sending (msg :: msgBuf) => some ({ rf with checker := .sent msg msgBuf }, some msg)
  | .sent msg msgBuf =>
    let rf := { rf with checker := .sending msgBuf }
    if msg.commandIndex ≠ rf.lastApplied + 1 then some (rf, none)
    else some ({ rf with lastApplied := max msg.commandIndex rf.lastApplied }, none)

end DistSys.Raft
