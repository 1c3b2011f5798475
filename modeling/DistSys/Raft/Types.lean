import DistSys.Lib.TermLog
import Mathlib.Data.Fintype.Card
import Mathlib.Data.List.FinRange
import Mathlib.Logic.Function.Basic

/-!
# One Raft server: data, indices, persistence (`raft.go`, `RPC.go`, `persistence.go`)

A server is a record `Raft n C` for a cluster of `n` servers and commands of type `C`
(Go's `interface{}`; the default of `C` stands for `nil`). Its fields are those of the Go struct.
Terms are integers, because the entry at position 0 has term `-1`; indices are natural numbers.
`votedFor` is `none` where the source has `-1`. Go's `int` does not wrap here, and the `float64`
minimum of `AppendEntries` is the minimum of the integers.

`rf.log` is a slice, and `doLeader` puts slices of the same array into the requests that it builds.
Lists stand for what the slices show; `array` says which array the log is a slice of. Position `i`
of an array is named by the global index that it is used for, which does not change when the log is
sliced again. What a later write shows to a request that has not been encoded is in `Cluster`.

A handler that holds the lock is a function on `Raft`. Where Go would stop with an index out of
range the result is `none`; every handler that can do so has saved nothing before, so stopping
there is a crash in the state before the handler.

`persister` holds the last saved state. The saved bytes are represented by the five values they
decode to.
-/

namespace DistSys.Raft

/-- The values of `rf.state`, in the order of the constants. -/
inductive Role
  | follower
  | preCandidate
  | candidate
  | leader
  deriving DecidableEq, Repr

structure LogEntry (C : Type) where
  term : ℤ
  command : C
  deriving DecidableEq, Repr

instance (C : Type) : Termed (LogEntry C) := ⟨LogEntry.term⟩

/-- Snapshots are bytes. -/
abbrev Data := List UInt8

structure ApplyMsg (C : Type) [Inhabited C] where
  commandValid : Bool := false
  command : C := default
  commandIndex : ℕ := 0
  commandTerm : ℤ := 0
  snapshotValid : Bool := false
  snapshot : Data := []
  snapshotTerm : ℤ := 0
  snapshotIndex : ℕ := 0
  deriving DecidableEq, Repr

structure AppendEntriesArgs (n : ℕ) (C : Type) where
  term : ℤ
  leaderId : Fin n
  prevLogIndex : ℕ
  prevLogTerm : ℤ
  entries : List (LogEntry C)
  leaderCommit : ℕ
  deriving DecidableEq, Repr

structure AppendEntriesReply where
  term : ℤ
  success : Bool
  deriving DecidableEq, Repr

structure RequestVoteArgs (n : ℕ) where
  term : ℤ
  candidateId : Fin n
  lastLogIndex : ℕ
  lastLogTerm : ℤ
  deriving DecidableEq, Repr

structure RequestVoteReply where
  term : ℤ
  voteGranted : Bool
  deriving DecidableEq, Repr

structure InstallSnapshotArgs (n : ℕ) (C : Type) where
  term : ℤ
  leaderId : Fin n
  lastIncludedIndex : ℕ
  lastIncludedTerm : ℤ
  data : Data
  lastIncludedCmd : C
  deriving DecidableEq, Repr

structure InstallSnapshotReply where
  term : ℤ
  shouldDie : Bool
  deriving DecidableEq, Repr

structure PreVoteReply where
  isOk : Bool
  deriving DecidableEq, Repr

/-- Where the goroutine of `CommitChecker` stands. -/
inductive Checker (C : Type) [Inhabited C]
  /-- At the top of its loop, not yet receiving from `commitCh`. -/
  | loop
  /-- Blocked on `<-rf.commitCh`. -/
  | waiting
  /-- Woken up, before it takes the lock. -/
  | woken
  /-- Sending the buffered messages on `applyCh`. -/
  | sending (msgBuf : List (ApplyMsg C))
  /-- Has sent `msg`; before it takes the lock to update `lastApplied`. -/
  | sent (msg : ApplyMsg C) (msgBuf : List (ApplyMsg C))
  deriving DecidableEq, Repr

/-- What `encodeState` writes. -/
structure RaftState (n : ℕ) (C : Type) where
  currentTerm : ℤ
  votedFor : Option (Fin n)
  log : List (LogEntry C)
  lastIncludedIndex : ℕ
  lastIncludedTerm : ℤ
  deriving DecidableEq, Repr

/-- The state last saved, `none` before the first `Save`. -/
structure Persister (n : ℕ) (C : Type) where
  raftstate : Option (RaftState n C) := none
  snapshot : Data := []
  deriving DecidableEq, Repr

end Raft

/-- A server. `array` numbers the arrays that `log` has been a slice of since the server started.
`checker` is the goroutine of `CommitChecker`, `snapSenders` are the goroutines in which
`InstallSnapshot` left a message to be sent on `applyCh`. -/
structure Raft (n : ℕ) (C : Type) [Inhabited C] where
  me : Fin n
  persister : Raft.Persister n C
  currentTerm : ℤ
  votedFor : Option (Fin n)
  log : List (Raft.LogEntry C)
  array : ℕ
  commitIndex : ℕ
  lastApplied : ℕ
  nextIndex : Fin n → ℕ
  matchIndex : Fin n → ℕ
  state : Raft.Role
  preVoteCount : ℕ
  voteCount : ℕ
  snapShot : Raft.Data
  lastIncludedIndex : ℕ
  lastIncludedTerm : ℤ
  checker : Raft.Checker C
  snapSenders : List (Raft.ApplyMsg C)

namespace Raft

variable {n : ℕ} {C : Type} [Inhabited C]

/-! ## Indices -/

/-- The position in `rf.log` of a global index. -/
def realLogIdx (rf : Raft n C) (vIdx : ℕ) : ℤ := vIdx - rf.lastIncludedIndex

/-- The global index of a position in `rf.log`. -/
def virtualLogIdx (rf : Raft n C) (rIdx : ℕ) : ℕ := rIdx + rf.lastIncludedIndex

/-- Go's `l[i]`: out of range, negative positions included, is a panic. -/
def goIndex {α : Type} (l : List α) (i : ℤ) : Option α :=
  if i < 0 then none else l[i.toNat]?

/-- `rf.log[rf.RealLogIdx(vIdx)]`. -/
def logAt (rf : Raft n C) (vIdx : ℕ) : Option (LogEntry C) :=
  goIndex rf.log (rf.realLogIdx vIdx)

/-- `rf.VirtualLogIdx(len(rf.log) - 1)`. -/
def lastLogIdx (rf : Raft n C) : ℕ := rf.virtualLogIdx (rf.log.length - 1)

theorem logAt_of_lt {rf : Raft n C} {v : ℕ} (h : v < rf.lastIncludedIndex) :
    rf.logAt v = none := by
  rw [logAt, goIndex, if_pos]
  rw [realLogIdx]
  omega

theorem logAt_of_le {rf : Raft n C} {v : ℕ} (h : rf.lastIncludedIndex ≤ v) :
    rf.logAt v = rf.log[v - rf.lastIncludedIndex]? := by
  have hr : rf.realLogIdx v = ((v - rf.lastIncludedIndex : ℕ) : ℤ) := by
    rw [realLogIdx]
    omega
  rw [logAt, goIndex, hr, if_neg (by omega), Int.toNat_natCast]

theorem logAt_eq_some {rf : Raft n C} {v : ℕ} {e : LogEntry C} :
    rf.logAt v = some e ↔
      rf.lastIncludedIndex ≤ v ∧ rf.log[v - rf.lastIncludedIndex]? = some e := by
  rcases Nat.lt_or_ge v rf.lastIncludedIndex with h | h
  · simp [logAt_of_lt h, Nat.not_le.2 h]
  · simp [logAt_of_le h, h]

/-- The indices that a log holds, its placeholder included. -/
theorem exists_logAt {rf : Raft n C} (hne : rf.log ≠ []) {v : ℕ} (hbase : rf.lastIncludedIndex ≤ v)
    (hlast : v ≤ rf.lastLogIdx) : ∃ e, rf.logAt v = some e := by
  have hpos := List.length_pos_iff.2 hne
  rw [lastLogIdx, virtualLogIdx] at hlast
  rw [logAt_of_le hbase]
  exact ⟨_, List.getElem?_eq_getElem (show v - rf.lastIncludedIndex < rf.log.length by omega)⟩

/-! ## Persistence -/

def encodeState (rf : Raft n C) : RaftState n C :=
  { currentTerm := rf.currentTerm
    votedFor := rf.votedFor
    log := rf.log
    lastIncludedIndex := rf.lastIncludedIndex
    lastIncludedTerm := rf.lastIncludedTerm }

/-- `rf.persister.Save(rf.encodeState(), rf.snapShot)`. -/
def persist (rf : Raft n C) : Raft n C :=
  { rf with persister := { raftstate := some rf.encodeState, snapshot := rf.snapShot } }

def readPersist (rf : Raft n C) : Option (RaftState n C) → Raft n C
  | none => rf
  | some st =>
    { rf with
      votedFor := st.votedFor
      currentTerm := st.currentTerm
      log := st.log
      lastIncludedIndex := st.lastIncludedIndex
      lastIncludedTerm := st.lastIncludedTerm
      commitIndex := st.lastIncludedIndex
      lastApplied := st.lastIncludedIndex }

def readSnapshot (rf : Raft n C) (data : Data) : Raft n C :=
  if data.length = 0 then rf else { rf with snapShot := data }

/-- `Make`: a server that starts, or starts again, from what `persister` holds. -/
def make (me : Fin n) (persister : Persister n C) : Raft n C :=
  let rf : Raft n C :=
    { me := me
      persister := persister
      currentTerm := 1
      votedFor := none
      log := [{ term := -1, command := default }]
      array := 0
      commitIndex := 0
      lastApplied := 0
      nextIndex := fun _ => 0
      matchIndex := fun _ => 0
      state := .follower
      preVoteCount := 0
      voteCount := 0
      snapShot := []
      lastIncludedIndex := 0
      lastIncludedTerm := -1
      checker := .loop
      snapSenders := [] }
  let rf := (rf.readSnapshot persister.snapshot).readPersist persister.raftstate
  { rf with
    nextIndex := fun _ => rf.virtualLogIdx rf.log.length
    matchIndex := fun _ => rf.lastIncludedIndex }

section Make

variable (me : Fin n) (persister : Persister n C)

/-- What `Make` builds, apart from the fields that it reads back. -/
theorem make_eq : ∃ term vote log next base baseTerm snap, make me persister =
    { me := me
      persister := persister
      currentTerm := term
      votedFor := vote
      log := log
      array := 0
      commitIndex := base
      lastApplied := base
      nextIndex := next
      matchIndex := fun _ => base
      state := .follower
      preVoteCount := 0
      voteCount := 0
      snapShot := snap
      lastIncludedIndex := base
      lastIncludedTerm := baseTerm
      checker := .loop
      snapSenders := [] } := by
  unfold make readSnapshot
  cases persister.raftstate <;> split <;> exact ⟨_, _, _, _, _, _, _, rfl⟩

@[simp] theorem make_me : (make me persister).me = me := by
  obtain ⟨_, _, _, _, _, _, _, h⟩ := make_eq me persister
  rw [h]

@[simp] theorem make_persister : (make me persister).persister = persister := by
  obtain ⟨_, _, _, _, _, _, _, h⟩ := make_eq me persister
  rw [h]

@[simp] theorem make_state : (make me persister).state = .follower := by
  obtain ⟨_, _, _, _, _, _, _, h⟩ := make_eq me persister
  rw [h]

@[simp] theorem make_commitIndex :
    (make me persister).commitIndex = (make me persister).lastIncludedIndex := by
  obtain ⟨_, _, _, _, _, _, _, h⟩ := make_eq me persister
  rw [h]

@[simp] theorem make_lastApplied :
    (make me persister).lastApplied = (make me persister).lastIncludedIndex := by
  obtain ⟨_, _, _, _, _, _, _, h⟩ := make_eq me persister
  rw [h]

@[simp] theorem make_checker : (make me persister).checker = .loop := by
  obtain ⟨_, _, _, _, _, _, _, h⟩ := make_eq me persister
  rw [h]

@[simp] theorem make_snapSenders : (make me persister).snapSenders = [] := by
  obtain ⟨_, _, _, _, _, _, _, h⟩ := make_eq me persister
  rw [h]

end Make

/-- The non-blocking send on `commitCh`: it succeeds only while `CommitChecker` is receiving. -/
def signal (rf : Raft n C) : Raft n C :=
  match rf.checker with
  | .waiting => { rf with checker := .woken }
  | _ => rf

/-- `GetState`. -/
def getState (rf : Raft n C) : ℤ × Bool := (rf.currentTerm, rf.state = .leader)

end DistSys.Raft
