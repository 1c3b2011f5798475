import DistSys.Raft.Types

/-!
# Votes (`vote.go` and the `Candidate` case of `ticker`)

`sendRequestVote` and `sendPreVote` are goroutines that call a peer and then handle the reply; the
functions of those names below are the part after the call.
-/

namespace DistSys.Raft

variable {n : ℕ} {C : Type} [Inhabited C]

/-- The servers that loops over `rf.peers` visit: all but `rf.me`. -/
def otherPeers (rf : Raft n C) : List (Fin n) := (List.finRange n).filter (· ≠ rf.me)

@[simp] theorem mem_otherPeers {rf : Raft n C} {i : Fin n} : i ∈ rf.otherPeers ↔ i ≠ rf.me := by
  simp [otherPeers]

theorem nodup_otherPeers (rf : Raft n C) : rf.otherPeers.Nodup :=
  (List.nodup_finRange n).filter _

/-- `RequestVote`. The log is never empty, so reading its last entry does not fail after the first
`persist`. -/
def requestVote (rf : Raft n C) (args : RequestVoteArgs n) :
    Option (Raft n C × RequestVoteReply) :=
  let refusal : RequestVoteReply := { term := rf.currentTerm, voteGranted := false }
  if args.term < rf.currentTerm then some (rf, refusal)
  else
    let rf :=
      if args.term > rf.currentTerm then
        ({ rf with currentTerm := args.term, state := .follower, votedFor := none }).persist
      else rf
    if rf.votedFor = none ∨ rf.votedFor = some args.candidateId then do
      let last ← rf.log.getLast?
      if args.lastLogTerm > last.term ∨
          (args.lastLogTerm = last.term ∧ args.lastLogIndex ≥ rf.virtualLogIdx rf.log.length) then
        some
          (({ rf with
              currentTerm := args.term
              state := .follower
              votedFor := some args.candidateId }).persist,
            { term := args.term, voteGranted := true })
      else some (rf, refusal)
    else some (rf, refusal)

/-- The rest of `sendRequestVote` once the call has returned. -/
def sendRequestVote (rf : Raft n C) (args : RequestVoteArgs n) (reply : RequestVoteReply) :
    Raft n C :=
  if reply.term = 0 then rf
  else if rf.currentTerm ≠ args.term then rf
  else if reply.voteGranted then
    -- `rf.state < Candidate`
    if rf.state = .follower ∨ rf.state = .preCandidate then rf
    else if rf.voteCount > n / 2 then rf
    else
      let rf := { rf with voteCount := rf.voteCount + 1 }
      if rf.voteCount > n / 2 then
        { rf with
          state := .leader
          nextIndex := fun _ => rf.virtualLogIdx rf.log.length
          matchIndex := fun _ => 0 }
      else rf
  else { rf with state := .follower }

/-- `PreVote`: a ping. -/
def preVote : PreVoteReply := { isOk := true }

/-- The rest of `sendPreVote` once the call has returned. -/
def sendPreVote (rf : Raft n C) (reply : PreVoteReply) : Raft n C :=
  if ¬ reply.isOk then rf
  else if rf.state ≠ .preCandidate then rf
  else
    let rf := { rf with preVoteCount := rf.preVoteCount + 1 }
    if rf.preVoteCount > n / 2 then { rf with state := .candidate } else rf

/-- A timeout of a `Follower` or `PreCandidate`, apart from the calls of `handlePreVote`. -/
def beginPreVote (rf : Raft n C) : Raft n C :=
  { rf with state := .preCandidate, preVoteCount := 1 }

/-- A timeout of a `Candidate`: a new term, and what it asks its peers. -/
def beginElection (rf : Raft n C) : Option (Raft n C × RequestVoteArgs n) := do
  let rf :=
    ({ rf with
        currentTerm := rf.currentTerm + 1
        votedFor := some rf.me
        voteCount := 1 }).persist
  let last ← rf.log.getLast?
  some (rf,
    { term := rf.currentTerm
      candidateId := rf.me
      lastLogIndex := rf.virtualLogIdx rf.log.length
      lastLogTerm := last.term })

end DistSys.Raft
