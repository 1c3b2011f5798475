import DistSys.Raft.Handlers

/-!
# What one step of the cluster can do

`Step c a c'` lists the cases of `Cluster.act`, one constructor for each; `act_cases` is the
inversion. The proofs about runs are case analyses on it. A step is one of these cases, after which
the goroutines of leaders see their slices again (`step_cases`).

What holds of all cases is proved here once:

* `Calm` — what a step does to the term, the vote and the role of a server when it neither counts
  a vote nor starts an election.
* `Durable.move` — the persistent fields are saved before the lock is released.
* `Step.logStep` — what a step does to the log of one server.
* `Step.mem_tasks`, `Step.mem_calls` — where the goroutines and the messages come from.
-/

namespace DistSys

open Raft

variable {n : ℕ} {C : Type} [Inhabited C]

namespace Cluster

/-- The cases of a step. -/
inductive Step (c : Cluster n C) : Action n C → Cluster n C → Prop
  | idle (a : Action n C) : Step c a c
  | start (s : Fin n) (command : C) (hl : (c.servers s).state = .leader) :
    Step c (.start s command)
      ((c.set s ((c.servers s).appendCommand command)).emit
        [.start s ((c.servers s).virtualLogIdx (c.servers s).log.length)
          (c.servers s).currentTerm command])
  | spawn (a : Action n C) (s : Fin n) (gs : List (Fin n × Task n C))
      (hl : (c.servers s).state = .leader) (hgs : (c.servers s).doLeader = some gs) :
    Step c a (c.spawn s gs)
  | preVote (s : Fin n) (hl : (c.servers s).state ≠ .leader) :
    Step c (.timeout s)
      ((c.set s (c.servers s).beginPreVote).call s (c.servers s).otherPeers (.preVote none))
  | election (s : Fin n) (rf : Raft n C) (args : RequestVoteArgs n)
      (hs : (c.servers s).state = .candidate) (h : (c.servers s).beginElection = some (rf, args)) :
    Step c (.timeout s)
      ((c.set s rf).call s (c.servers s).otherPeers (.requestVote args none))
  | dropTask (k : ℕ) : Step c (.task k) { c with tasks := c.tasks.eraseIdx k }
  | runTask (k : ℕ) (g : Spawned n C) (rpc : Rpc n C) (hg : g ∈ c.tasks)
      (hep : g.epoch = c.epoch g.caller)
      (hl : g.task = .handleInstallSnapshot → (c.servers g.caller).state = .leader)
      (hrpc : g.task.rpc (c.servers g.caller) = some rpc) :
    Step c (.task k)
      (({ c with tasks := c.tasks.eraseIdx k } : Cluster n C).call g.caller [g.server] rpc)
  | encode (k : ℕ) (g : Spawned n C) (j : ℕ) (hg : c.tasks[k]? = some g)
      (hj : g.encoded.getD 0 ≤ j) :
    Step c (.encode k) { c with tasks := c.tasks.set k { g with encoded := some j } }
  | deliver (k : ℕ) (call : Call n C) (rf : Raft n C) (rpc : Rpc n C) (hk : c.calls[k]? = some call)
      (h : call.rpc.handle (c.servers call.server) = some (rf, rpc)) :
    Step c (.deliver k) (c.answerCall k call rf rpc)
  | receive (k : ℕ) (call : Call n C) (rf : Raft n C) (hk : c.calls[k]? = some call)
      (hw : call.waiting = true) (he : call.epoch = c.epoch call.caller)
      (h : call.rpc.finish (c.servers call.caller) call.server = some rf) :
    Step c (.receive k) (c.finishCall k call rf)
  | lose (k : ℕ) (call : Call n C) (hk : c.calls[k]? = some call)
      (he : call.epoch = c.epoch call.caller) :
    Step c (.lose k) (c.loseCall k call)
  | commitChecker (s : Fin n) (rf : Raft n C) (msg : Option (ApplyMsg C))
      (h : (c.servers s).commitChecker = some (rf, msg)) :
    Step c (.commitChecker s)
      ((c.set s rf).emit (msg.toList.map fun msg => .apply s (c.epoch s) msg))
  | sendSnapshot (s : Fin n) (k : ℕ) (msg : ApplyMsg C)
      (h : (c.servers s).snapSenders[k]? = some msg) :
    Step c (.sendSnapshot s k)
      ((c.set s { c.servers s with snapSenders := (c.servers s).snapSenders.eraseIdx k }).emit
        [.apply s (c.epoch s) msg])
  | snapshot (s : Fin n) (index : ℕ) (data : Data) (rf : Raft n C)
      (h : (c.servers s).snapshot index data = some rf) :
    Step c (.snapshot s index data) (c.set s rf)
  | grow (s : Fin n) :
    Step c (.grow s) (c.set s { c.servers s with array := (c.servers s).array + 1 })
  | crash (s : Fin n) : Step c (.crash s) (c.restart s)

variable {c c' : Cluster n C} {a : Action n C}

@[simp] theorem set_self (c : Cluster n C) (s : Fin n) : c.set s (c.servers s) = c := by
  rw [set, Function.update_eq_self]

@[simp] theorem emit_nil (c : Cluster n C) : c.emit [] = c := by
  rw [emit, List.append_nil]

theorem act_cases (h : c.act a = some c') : Step c a c' := by
  cases a with
  | start s command =>
    cases h
    by_cases hl : (c.servers s).state = .leader
    · rw [start_of_leader hl]
      exact Step.start s command hl
    · rw [start_of_ne_leader hl]
      simp only [Option.toList_none, List.map_nil, set_self, emit_nil]
      exact Step.idle _
  | msgComing s =>
    simp only [act] at h
    split at h
    · rename_i hl
      obtain ⟨gs, hgs, rfl⟩ := Option.map_eq_some_iff.1 h
      exact Step.spawn _ s gs hl hgs
    · cases h
      exact Step.idle _
  | timeout s =>
    simp only [act] at h
    split at h
    · rename_i hs
      cases h
      exact Step.preVote s (by rw [hs]; decide)
    · rename_i hs
      cases h
      exact Step.preVote s (by rw [hs]; decide)
    · rename_i hs
      obtain ⟨r, hr, rfl⟩ := Option.map_eq_some_iff.1 h
      exact Step.election s r.1 r.2 hs hr
    · rename_i hl
      obtain ⟨gs, hgs, rfl⟩ := Option.map_eq_some_iff.1 h
      exact Step.spawn _ s gs hl hgs
  | task k =>
    obtain ⟨g, hg, h⟩ := Option.bind_eq_some_iff.1 h
    simp only at h
    split at h
    · cases h
    rename_i hep
    split at h
    · cases h
      exact Step.dropTask k
    · rename_i hl
      obtain ⟨rpc, hrpc, rfl⟩ := Option.map_eq_some_iff.1 h
      refine Step.runTask k g rpc (List.mem_of_getElem? hg) (not_not.1 hep) (fun htask => ?_) hrpc
      by_contra hne
      exact hl ⟨hne, by rw [Spawned.calling, htask]; exact Bool.false_ne_true⟩
  | encode k =>
    obtain ⟨g, hg, h⟩ := Option.bind_eq_some_iff.1 h
    split at h
    · cases h
    split at h
    · rename_i j _ hj
      cases h
      exact Step.encode k g (j + 1) hg (by rw [hj]; exact Nat.le_succ j)
    · rename_i _ hj
      split at h
      · cases h
      · cases h
        exact Step.encode k g 0 hg (by rw [hj]; exact Nat.le_refl 0)
    · cases h
  | deliver k =>
    obtain ⟨call, hk, h⟩ := Option.bind_eq_some_iff.1 h
    obtain ⟨r, hr, h⟩ := Option.bind_eq_some_iff.1 h
    cases h
    exact Step.deliver k call r.1 r.2 hk hr
  | receive k =>
    obtain ⟨call, hk, h⟩ := Option.bind_eq_some_iff.1 h
    split at h
    · rename_i hlive
      obtain ⟨rf, hrf, rfl⟩ := Option.map_eq_some_iff.1 h
      exact Step.receive k call rf hk hlive.1 hlive.2 hrf
    · cases h
  | lose k =>
    obtain ⟨call, hk, h⟩ := Option.bind_eq_some_iff.1 h
    split at h
    · rename_i hlive
      cases h
      exact Step.lose k call hk hlive.2
    · cases h
  | commitChecker s =>
    obtain ⟨r, hr, h⟩ := Option.bind_eq_some_iff.1 h
    cases h
    exact Step.commitChecker s r.1 r.2 hr
  | sendSnapshot s k =>
    obtain ⟨msg, hmsg, h⟩ := Option.bind_eq_some_iff.1 h
    cases h
    exact Step.sendSnapshot s k msg hmsg
  | snapshot s index data =>
    obtain ⟨rf, hrf, rfl⟩ := Option.map_eq_some_iff.1 h
    exact Step.snapshot s index data rf hrf
  | grow s =>
    cases h
    exact Step.grow s
  | crash s =>
    cases h
    exact Step.crash s

/-- A step is an action, after which the slices of the goroutines are read again. -/
theorem step_cases (h : c.step a = some c') : ∃ c₀, Step c a c₀ ∧ c₀.refresh = c' := by
  obtain ⟨c₀, hact, hc'⟩ := Option.map_eq_some_iff.1 h
  exact ⟨c₀, act_cases hact, hc'⟩

end Cluster

namespace Raft

variable {rf rf' : Raft n C}

/-! ## Reading a slice again -/

@[simp] theorem Spawned.caller_reread (rf : Raft n C) (t : Spawned n C) :
    (t.reread rf).caller = t.caller := by
  unfold Spawned.reread
  split <;> rfl

@[simp] theorem Spawned.server_reread (rf : Raft n C) (t : Spawned n C) :
    (t.reread rf).server = t.server := by
  unfold Spawned.reread
  split <;> rfl

theorem Spawned.task_reread {t : Spawned n C} {args : AppendEntriesArgs n C}
    (h : (t.reread rf).task = .sendAppendEntries args) :
    ∃ args', t.task = .sendAppendEntries args' ∧ args = args'.reread rf (t.encoded.getD 0) := by
  unfold Spawned.reread at h
  split at h
  · rename_i args' htask
    cases h
    exact ⟨args', htask, rfl⟩
  · rename_i htask
    rw [htask] at h
    cases h

/-- Every entry that the slice shows was there before or is in the log at its index. -/
theorem AppendEntriesArgs.getElem?_reread {args : AppendEntriesArgs n C} {encoded j : ℕ}
    {e : LogEntry C} (h : (args.reread rf encoded).entries[j]? = some e) :
    args.entries[j]? = some e ∨ rf.logAt (args.prevLogIndex + 1 + j) = some e := by
  rw [reread, List.getElem?_mapIdx, Option.map_eq_some_iff] at h
  obtain ⟨old, hold, rfl⟩ := h
  split
  · exact Or.inl hold
  · cases hlog : rf.logAt (args.prevLogIndex + 1 + j) with
    | none => exact Or.inl hold
    | some e => exact Or.inr rfl

/-! ## Calls and replies -/

theorem Rpc.handle_cases {rpc rpc' : Rpc n C} (h : rpc.handle rf = some (rf', rpc')) :
    (∃ args reply, rpc = .appendEntries args none ∧ rpc' = .appendEntries args (some reply) ∧
      rf.appendEntries args = some (rf', reply)) ∨
    (∃ args reply, rpc = .requestVote args none ∧ rpc' = .requestVote args (some reply) ∧
      rf.requestVote args = some (rf', reply)) ∨
    (rpc = .preVote none ∧ rpc' = .preVote (some Raft.preVote) ∧ rf' = rf) ∨
    (∃ args reply, rpc = .installSnapshot args none ∧
      rpc' = .installSnapshot args (some reply) ∧ rf.installSnapshot args = (rf', reply)) := by
  unfold Rpc.handle at h
  split at h
  · obtain ⟨r, hr, h⟩ := Option.map_eq_some_iff.1 h
    cases h
    exact Or.inl ⟨_, r.2, rfl, rfl, hr⟩
  · obtain ⟨r, hr, h⟩ := Option.map_eq_some_iff.1 h
    cases h
    exact Or.inr (Or.inl ⟨_, r.2, rfl, rfl, hr⟩)
  · cases h
    exact Or.inr (Or.inr (Or.inl ⟨rfl, rfl, rfl⟩))
  · cases h
    exact Or.inr (Or.inr (Or.inr ⟨_, _, rfl, rfl, rfl⟩))
  · cases h

theorem Rpc.finish_cases {rpc : Rpc n C} {server : Fin n} (h : rpc.finish rf server = some rf') :
    (∃ args reply, rpc = .appendEntries args (some reply) ∧
      rf.sendAppendEntries server args reply = some rf') ∨
    (∃ args reply, rpc = .requestVote args (some reply) ∧ rf' = rf.sendRequestVote args reply) ∨
    (∃ reply, rpc = .preVote (some reply) ∧ rf' = rf.sendPreVote reply) ∨
    (∃ args reply, rpc = .installSnapshot args (some reply) ∧
      rf' = rf.handleInstallSnapshot server reply) := by
  unfold Rpc.finish at h
  split at h
  · exact Or.inl ⟨_, _, rfl, h⟩
  · cases h
    exact Or.inr (Or.inl ⟨_, _, rfl, rfl⟩)
  · cases h
    exact Or.inr (Or.inr (Or.inl ⟨_, rfl, rfl⟩))
  · cases h
    exact Or.inr (Or.inr (Or.inr ⟨_, _, rfl, rfl⟩))
  · cases h

/-! ## Terms and votes -/

/-- The term does not go down; within a term a vote is kept, and no leader appears. -/
structure Steady (rf rf' : Raft n C) : Prop where
  me : rf'.me = rf.me
  term_le : rf.currentTerm ≤ rf'.currentTerm
  vote : rf'.currentTerm = rf.currentTerm → rf.votedFor = none ∨ rf'.votedFor = rf.votedFor
  leader : rf'.state = .leader → rf.state = .leader ∧ rf'.currentTerm = rf.currentTerm

/-- A steady step that counts no vote. -/
structure Calm (rf rf' : Raft n C) : Prop extends Steady rf rf' where
  voteCount : rf'.currentTerm = rf.currentTerm → rf'.voteCount = rf.voteCount

theorem Calm.refl (rf : Raft n C) : Calm rf rf :=
  ⟨⟨rfl, le_rfl, fun _ => Or.inr rfl, fun h => ⟨h, rfl⟩⟩, fun _ => rfl⟩

theorem Calm.persist (h : Calm rf rf') : Calm rf rf'.persist :=
  ⟨⟨h.me, h.term_le, h.vote, h.leader⟩, h.voteCount⟩

theorem Calm.of_same (me : rf'.me = rf.me) (term : rf'.currentTerm = rf.currentTerm)
    (vote : rf'.votedFor = rf.votedFor) (count : rf'.voteCount = rf.voteCount)
    (leader : rf'.state = .leader → rf.state = .leader) : Calm rf rf' :=
  ⟨⟨me, term.ge, fun _ => Or.inr vote, fun h => ⟨leader h, term⟩⟩, fun _ => count⟩

/-- A follower of a new term. -/
theorem Calm.of_lt (me : rf'.me = rf.me) (hlt : rf.currentTerm < rf'.currentTerm)
    (hf : rf'.state ≠ .leader) : Calm rf rf' :=
  ⟨⟨me, hlt.le, fun h => absurd h hlt.ne', fun h => absurd h hf⟩, fun h => absurd h hlt.ne'⟩

theorem calm_appendCommand (rf : Raft n C) (command : C) : Calm rf (rf.appendCommand command) :=
  Calm.persist (Calm.of_same rfl rfl rfl rfl id)

theorem calm_beginPreVote (rf : Raft n C) : Calm rf rf.beginPreVote :=
  Calm.of_same rfl rfl rfl rfl fun h => by cases h

theorem calm_adoptTerm (rf : Raft n C) (t : ℤ) : Calm rf (rf.adoptTerm t) := by
  unfold adoptTerm
  split
  · rename_i hlt
    exact Calm.of_lt rfl hlt (by simp)
  · exact Calm.refl rf

theorem adoptTerm_term {t : ℤ} (h : rf.currentTerm ≤ t) : (rf.adoptTerm t).currentTerm = t := by
  unfold adoptTerm
  split
  · rfl
  · omega

theorem calm_requestVote {args : RequestVoteArgs n} {reply : RequestVoteReply}
    (h : rf.requestVote args = some (rf', reply)) : Calm rf rf' := by
  rcases requestVote_cases h with ⟨rfl, -⟩ | ⟨hlt, rfl, -⟩ | ⟨hle, hvote, -, rfl, -⟩
  · exact Calm.refl rf'
  · exact Calm.persist (Calm.of_lt rfl hlt (by simp [follow]))
  · refine Calm.persist ⟨⟨rfl, hle, fun he => ?_, fun hl => by simp [grant] at hl⟩, fun _ => rfl⟩
    rcases hvote he with hv | hv
    · exact Or.inl hv
    · exact Or.inr hv.symm

theorem calm_appendEntries {args : AppendEntriesArgs n C} {reply : AppendEntriesReply}
    (h : rf.appendEntries args = some (rf', reply)) : Calm rf rf' := by
  rcases appendEntries_cases h with ⟨rfl, -⟩ | ⟨-, -, rfl⟩ | ⟨-, -, -, rfl⟩
  · exact Calm.refl rf'
  · exact (calm_adoptTerm rf args.term).persist
  · obtain ⟨ch, hch, -⟩ := acceptEntries_eq (rf.adoptTerm args.term) args
    have hcalm := calm_adoptTerm rf args.term
    rw [hch]
    exact ⟨⟨hcalm.me, hcalm.term_le, hcalm.vote, hcalm.leader⟩, hcalm.voteCount⟩

theorem calm_installSnapshot (rf : Raft n C) (args : InstallSnapshotArgs n C) :
    Calm rf (rf.installSnapshot args).1 := by
  rcases installSnapshot_cases rf args with h | ⟨hle, h⟩
  · rw [h]
    exact Calm.refl rf
  · rw [h]
    refine Calm.persist ⟨⟨rfl, hle, fun he => Or.inr ?_, fun hl => by simp at hl⟩, fun _ => rfl⟩
    exact if_neg (by simp only at he; omega)

theorem Rpc.calm_handle {rpc rpc' : Rpc n C} (h : rpc.handle rf = some (rf', rpc')) :
    Calm rf rf' := by
  rcases Rpc.handle_cases h with ⟨args, reply, -, -, h⟩ | ⟨args, reply, -, -, h⟩ | ⟨-, -, rfl⟩ |
    ⟨args, reply, -, -, h⟩
  · exact calm_appendEntries h
  · exact calm_requestVote h
  · exact Calm.refl rf'
  · have hcalm := calm_installSnapshot rf args
    rwa [h] at hcalm

theorem advanceCommit_frame {N : ℕ} (h : rf.advanceCommit N = some rf') :
    ∃ N' ch, rf' = { rf with commitIndex := N', checker := ch } ∧ Woken rf.checker ch := by
  rcases advanceCommit_cases h with rfl | ⟨N', -, -, rfl, -⟩
  · exact ⟨_, _, rfl, Or.inl rfl⟩
  · obtain ⟨ch, hch, hw⟩ := signal_eq { rf with commitIndex := N' }
    exact ⟨N', ch, hch, hw⟩

theorem calm_sendAppendEntries {server : Fin n} {args : AppendEntriesArgs n C}
    {reply : AppendEntriesReply} (h : rf.sendAppendEntries server args reply = some rf') :
    Calm rf rf' := by
  rcases sendAppendEntries_cases h with ⟨next, rfl⟩ | ⟨hlt, rfl⟩ | ⟨-, -, h⟩
  · exact Calm.of_same rfl rfl rfl rfl id
  · exact Calm.persist (Calm.of_lt rfl hlt (by simp [follow]))
  · obtain ⟨N', ch, rfl, -⟩ := advanceCommit_frame h
    exact Calm.of_same rfl rfl rfl rfl id

theorem calm_handleInstallSnapshot (rf : Raft n C) (server : Fin n) (reply : InstallSnapshotReply) :
    Calm rf (rf.handleInstallSnapshot server reply) := by
  rcases handleInstallSnapshot_cases rf server reply with ⟨next, h⟩ | ⟨hlt, h⟩
  · rw [h]
    exact Calm.of_same rfl rfl rfl rfl id
  · rw [h]
    exact Calm.persist (Calm.of_lt rfl hlt (by simp [follow]))

theorem calm_sendPreVote (rf : Raft n C)
    (reply : PreVoteReply) : Calm rf (rf.sendPreVote reply) := by
  rcases sendPreVote_cases rf reply with h | ⟨-, r, hr, h⟩
  · rw [h]
    exact Calm.refl rf
  · rw [h]
    exact Calm.of_same rfl rfl rfl rfl fun hl => absurd hl hr

/-- Handling a reply either counts a vote or is calm. -/
theorem Rpc.finish_calm {rpc : Rpc n C} {server : Fin n} (h : rpc.finish rf server = some rf') :
    Calm rf rf' ∨ ∃ args reply, rpc = .requestVote args (some reply) ∧
      rf.currentTerm = args.term ∧ reply.voteGranted = true ∧ rf.voteCount ≤ n / 2 ∧
      rf' = rf.countVote := by
  rcases Rpc.finish_cases h with ⟨args, reply, -, h⟩ | ⟨args, reply, hrpc, rfl⟩ |
    ⟨reply, -, rfl⟩ | ⟨args, reply, -, rfl⟩
  · exact Or.inl (calm_sendAppendEntries h)
  · rcases sendRequestVote_cases rf args reply with h | ⟨-, -, h⟩ | ⟨hterm, hg, hcount, h⟩
    · rw [h]
      exact Or.inl (Calm.refl rf)
    · rw [h]
      exact Or.inl (Calm.of_same rfl rfl rfl rfl fun hl => by simp at hl)
    · exact Or.inr ⟨args, reply, hrpc, hterm, hg, hcount, h⟩
  · exact Or.inl (calm_sendPreVote rf reply)
  · exact Or.inl (calm_handleInstallSnapshot rf server reply)

theorem countVote_term (rf : Raft n C) : rf.countVote.currentTerm = rf.currentTerm := by
  rw [countVote]
  split <;> rfl

theorem Rpc.term_le_finish {rpc : Rpc n C} {server : Fin n}
    (h : rpc.finish rf server = some rf') : rf.currentTerm ≤ rf'.currentTerm := by
  rcases Rpc.finish_calm h with hcalm | ⟨args, reply, -, -, -, -, rfl⟩
  · exact hcalm.term_le
  · exact (countVote_term rf).ge

theorem calm_commitChecker {msg : Option (ApplyMsg C)} (h : rf.commitChecker = some (rf', msg)) :
    Calm rf rf' := by
  obtain ⟨ch, applied, rfl⟩ := commitChecker_frame h
  exact Calm.of_same rfl rfl rfl rfl id

theorem calm_snapshot {index : ℕ} {data : Data} (h : rf.snapshot index data = some rf') :
    Calm rf rf' := by
  rcases snapshot_cases h with rfl | ⟨-, -, e, -, rfl⟩
  · exact Calm.refl rf'
  · exact Calm.persist (Calm.of_same rfl rfl rfl rfl id)

/-! ## Steps that leave the log alone -/

/-- The log, what it starts at, and the snapshot are the same. -/
structure SameLog (rf rf' : Raft n C) : Prop where
  log : rf'.log = rf.log
  lastIncludedIndex : rf'.lastIncludedIndex = rf.lastIncludedIndex
  lastIncludedTerm : rf'.lastIncludedTerm = rf.lastIncludedTerm
  snapShot : rf'.snapShot = rf.snapShot

theorem SameLog.refl (rf : Raft n C) : SameLog rf rf := ⟨rfl, rfl, rfl, rfl⟩

theorem sameLog_adoptTerm (rf : Raft n C) (t : ℤ) : SameLog rf (rf.adoptTerm t) := by
  unfold adoptTerm
  split <;> exact ⟨rfl, rfl, rfl, rfl⟩

theorem sameLog_requestVote {args : RequestVoteArgs n} {reply : RequestVoteReply}
    (h : rf.requestVote args = some (rf', reply)) : SameLog rf rf' := by
  rcases requestVote_cases h with ⟨rfl, -⟩ | ⟨-, rfl, -⟩ | ⟨-, -, -, rfl, -⟩ <;>
    exact ⟨rfl, rfl, rfl, rfl⟩

theorem sameLog_countVote (rf : Raft n C) : SameLog rf rf.countVote := by
  rw [countVote]
  split <;> exact ⟨rfl, rfl, rfl, rfl⟩

/-- Replies never touch the log. -/
theorem Rpc.sameLog_finish {rpc : Rpc n C} {server : Fin n} (h : rpc.finish rf server = some rf') :
    SameLog rf rf' := by
  rcases Rpc.finish_cases h with ⟨args, reply, -, h⟩ | ⟨args, reply, -, rfl⟩ |
    ⟨reply, -, rfl⟩ | ⟨args, reply, -, rfl⟩
  · rcases sendAppendEntries_cases h with ⟨next, rfl⟩ | ⟨-, rfl⟩ | ⟨-, -, h⟩
    · exact ⟨rfl, rfl, rfl, rfl⟩
    · exact ⟨rfl, rfl, rfl, rfl⟩
    · obtain ⟨N', ch, rfl, -⟩ := advanceCommit_frame h
      exact ⟨rfl, rfl, rfl, rfl⟩
  · rcases sendRequestVote_cases rf args reply with h | ⟨-, -, h⟩ | ⟨-, -, -, h⟩
    · rw [h]
      exact SameLog.refl rf
    · rw [h]
      exact ⟨rfl, rfl, rfl, rfl⟩
    · rw [h]
      exact sameLog_countVote rf
  · rcases sendPreVote_cases rf reply with h | ⟨-, r, -, h⟩
    · rw [h]
      exact SameLog.refl rf
    · rw [h]
      exact ⟨rfl, rfl, rfl, rfl⟩
  · rcases handleInstallSnapshot_cases rf server reply with ⟨next, h⟩ | ⟨-, h⟩
    · rw [h]
      exact ⟨rfl, rfl, rfl, rfl⟩
    · rw [h]
      exact ⟨rfl, rfl, rfl, rfl⟩

theorem sameLog_commitChecker {msg : Option (ApplyMsg C)}
    (h : rf.commitChecker = some (rf', msg)) : SameLog rf rf' := by
  obtain ⟨ch, applied, rfl⟩ := commitChecker_frame h
  exact ⟨rfl, rfl, rfl, rfl⟩

/-! ## Durability -/

/-- What is saved is what is in memory, or nothing is saved and the server is as `Make` first
starts it. -/
def Durable (rf : Raft n C) : Prop :=
  rf.persister = ⟨some rf.encodeState, rf.snapShot⟩ ∨
    (rf.persister = {} ∧ rf.snapShot = [] ∧
      rf.encodeState = (make rf.me ({} : Persister n C)).encodeState)

theorem durable_persist (rf : Raft n C) : Durable rf.persist := Or.inl rfl

theorem Durable.of_same (h : Durable rf) (me : rf'.me = rf.me) (hp : rf'.persister = rf.persister)
    (he : rf'.encodeState = rf.encodeState) (hs : rf'.snapShot = rf.snapShot) : Durable rf' := by
  rw [Durable, me, hp, he, hs]
  exact h

/-- A restart brings back the persistent fields and the snapshot. -/
theorem Durable.make_eq (h : Durable rf) :
    (make rf.me rf.persister).encodeState = rf.encodeState ∧
      (make rf.me rf.persister).snapShot = rf.snapShot := by
  rcases h with h | ⟨h, hs, he⟩
  · rw [h]
    refine ⟨?_, ?_⟩
    · simp only [make, readPersist, encodeState]
    · simp only [make, readPersist, readSnapshot]
      split
      · rename_i hnil
        rw [List.length_eq_zero_iff.1 hnil]
      · rfl
  · rw [h]
    exact ⟨he.symm, hs.symm⟩

/-! ## Invariants of single servers -/

/-- The steps of one server, whatever the network does. -/
inductive Move (rf : Raft n C) : Raft n C → Prop
  | idle : Move rf rf
  | start (command : C) (hl : rf.state = .leader) : Move rf (rf.appendCommand command)
  | preVote (hl : rf.state ≠ .leader) : Move rf rf.beginPreVote
  | election : Move rf rf.campaign
  | handle (rpc rpc' : Rpc n C) (rf' : Raft n C) (h : rpc.handle rf = some (rf', rpc')) :
    Move rf rf'
  | finish (rpc : Rpc n C) (server : Fin n) (rf' : Raft n C)
      (h : rpc.finish rf server = some rf') : Move rf rf'
  | commitChecker (rf' : Raft n C) (msg : Option (ApplyMsg C))
      (h : rf.commitChecker = some (rf', msg)) : Move rf rf'
  | sendSnapshot (k : ℕ) : Move rf { rf with snapSenders := rf.snapSenders.eraseIdx k }
  | snapshot (index : ℕ) (data : Data) (rf' : Raft n C) (h : rf.snapshot index data = some rf') :
    Move rf rf'
  | grow : Move rf { rf with array := rf.array + 1 }
  | crash : Move rf (make rf.me rf.persister)

theorem Durable.handle (h : Durable rf) {rpc rpc' : Rpc n C}
    (hr : rpc.handle rf = some (rf', rpc')) : Durable rf' := by
  rcases Rpc.handle_cases hr with ⟨args, reply, -, -, hr⟩ | ⟨args, reply, -, -, hr⟩ | ⟨-, -, rfl⟩ |
    ⟨args, reply, -, -, hr⟩
  · rcases appendEntries_cases hr with ⟨rfl, -⟩ | ⟨-, -, rfl⟩ | ⟨-, -, -, rfl⟩
    · exact h
    · exact durable_persist _
    · obtain ⟨ch, hch, -⟩ := acceptEntries_eq (rf.adoptTerm args.term) args
      rw [hch]
      exact Or.inl rfl
  · rcases requestVote_cases hr with ⟨rfl, -⟩ | ⟨-, rfl, -⟩ | ⟨-, -, -, rfl, -⟩
    · exact h
    · exact durable_persist _
    · exact durable_persist _
  · exact h
  · have hcases := installSnapshot_cases rf args
    rw [hr] at hcases
    rcases hcases with rfl | ⟨-, rfl⟩
    · exact h
    · exact durable_persist _

theorem Durable.finish (h : Durable rf) {rpc : Rpc n C} {server : Fin n}
    (hr : rpc.finish rf server = some rf') : Durable rf' := by
  rcases Rpc.finish_cases hr with ⟨args, reply, -, hr⟩ | ⟨args, reply, -, rfl⟩ |
    ⟨reply, -, rfl⟩ | ⟨args, reply, -, rfl⟩
  · rcases sendAppendEntries_cases hr with ⟨next, rfl⟩ | ⟨-, rfl⟩ | ⟨-, -, hr⟩
    · exact h.of_same rfl rfl rfl rfl
    · exact durable_persist _
    · obtain ⟨N', ch, rfl, -⟩ := advanceCommit_frame hr
      exact h.of_same rfl rfl rfl rfl
  · rcases sendRequestVote_cases rf args reply with hr | ⟨-, -, hr⟩ | ⟨-, -, -, hr⟩
    · rwa [hr]
    · rw [hr]
      exact h.of_same rfl rfl rfl rfl
    · rw [hr, countVote]
      split <;> exact h.of_same rfl rfl rfl rfl
  · rcases sendPreVote_cases rf reply with hr | ⟨-, r, -, hr⟩
    · rwa [hr]
    · rw [hr]
      exact h.of_same rfl rfl rfl rfl
  · rcases handleInstallSnapshot_cases rf server reply with ⟨next, hr⟩ | ⟨-, hr⟩
    · rw [hr]
      exact h.of_same rfl rfl rfl rfl
    · rw [hr]
      exact durable_persist _

/-- **Every step saves what it changes.** -/
theorem Durable.move (h : Durable rf) (hm : Move rf rf') : Durable rf' := by
  cases hm with
  | idle => exact h
  | start command hl => exact durable_persist _
  | preVote hl => exact h.of_same rfl rfl rfl rfl
  | election => exact durable_persist _
  | handle rpc rpc' _ hr => exact h.handle hr
  | finish rpc server _ hr => exact h.finish hr
  | commitChecker _ msg hr =>
    obtain ⟨ch, applied, rfl⟩ := commitChecker_frame hr
    exact h.of_same rfl rfl rfl rfl
  | sendSnapshot k => exact h.of_same rfl rfl rfl rfl
  | snapshot index data _ hr =>
    rcases snapshot_cases hr with rfl | ⟨-, -, e, -, rfl⟩
    · exact h
    · exact durable_persist _
  | grow => exact h.of_same rfl rfl rfl rfl
  | crash =>
    have hmake := h.make_eq
    rcases h with h | ⟨hp, -, -⟩
    · left
      rw [hmake.1, hmake.2, make_persister]
      exact h
    · right
      rw [hp]
      exact ⟨rfl, rfl, rfl⟩

theorem Move.me (hm : Move rf rf') : rf'.me = rf.me := by
  cases hm with
  | idle => rfl
  | start command hl => rfl
  | preVote hl => rfl
  | election => rfl
  | handle rpc rpc' _ hr => exact (Rpc.calm_handle hr).me
  | finish rpc server _ hr =>
    rcases Rpc.finish_calm hr with hcalm | ⟨args, reply, -, -, -, -, rfl⟩
    · exact hcalm.me
    · rw [countVote]
      split <;> rfl
  | commitChecker _ msg hr => exact (calm_commitChecker hr).me
  | sendSnapshot k => rfl
  | snapshot index data _ hr => exact (calm_snapshot hr).me
  | grow => rfl
  | crash => exact make_me _ _

theorem Durable.sameLog_make (h : Durable rf) : SameLog rf (make rf.me rf.persister) :=
  have he := h.make_eq.1
  ⟨congrArg RaftState.log he, congrArg RaftState.lastIncludedIndex he,
    congrArg RaftState.lastIncludedTerm he, h.make_eq.2⟩

theorem log_ne_nil_handle (h : rf.log ≠ []) {rpc rpc' : Rpc n C}
    (hr : rpc.handle rf = some (rf', rpc')) : rf'.log ≠ [] := by
  rcases Rpc.handle_cases hr with ⟨args, reply, -, -, hr⟩ | ⟨args, reply, -, -, hr⟩ | ⟨-, -, rfl⟩ |
    ⟨args, reply, -, -, hr⟩
  · have hadopt := sameLog_adoptTerm rf args.term
    rcases appendEntries_cases hr with ⟨rfl, -⟩ | ⟨-, -, rfl⟩ | ⟨-, -, ⟨prev, hprev, -⟩, rfl⟩
    · exact h
    · rw [persist, hadopt.log]
      exact h
    · obtain ⟨ch, hch, -⟩ := acceptEntries_eq (rf.adoptTerm args.term) args
      have hprev' : (rf.adoptTerm args.term).logAt args.prevLogIndex = some prev := by
        rwa [logAt, realLogIdx, hadopt.log, hadopt.lastIncludedIndex]
      have htake := take_mergedLog hprev'
      rw [hch]
      intro hnil
      have hnil : (rf.adoptTerm args.term).mergedLog args = [] := hnil
      rw [hnil, List.take_nil, hadopt.log, eq_comm, List.take_eq_nil_iff] at htake
      exact htake.elim (fun h0 => Nat.succ_ne_zero _ h0) h
  · rw [(sameLog_requestVote hr).log]
    exact h
  · exact h
  · have hcases := installSnapshot_cases rf args
    rw [hr] at hcases
    rcases hcases with rfl | ⟨-, rfl⟩
    · exact h
    · rcases installedLog_cases rf args with ⟨k, e, hk, -, -, heq⟩ | ⟨-, heq⟩
      · have hlt := (List.getElem?_eq_some_iff.1 hk).1
        rw [install, persist, heq]
        exact fun hnil => absurd (List.drop_eq_nil_iff.1 hnil) (Nat.not_le.2 hlt)
      · rw [install, persist, heq]
        exact List.cons_ne_nil _ _

/-- The log keeps its first entry, a placeholder. -/
theorem Move.log_ne_nil (hm : Move rf rf') (hd : Durable rf) (h : rf.log ≠ []) : rf'.log ≠ [] := by
  cases hm with
  | idle => exact h
  | start command hl => exact List.append_ne_nil_of_left_ne_nil h _
  | preVote hl => exact h
  | election => exact h
  | handle rpc rpc' _ hr => exact log_ne_nil_handle h hr
  | finish rpc server _ hr =>
    rw [(Rpc.sameLog_finish hr).log]
    exact h
  | commitChecker _ msg hr =>
    rw [(sameLog_commitChecker hr).log]
    exact h
  | sendSnapshot k => exact h
  | snapshot index data _ hr =>
    rcases snapshot_cases hr with rfl | ⟨-, -, e, he, rfl⟩
    · exact h
    · have hlt := (List.getElem?_eq_some_iff.1 (logAt_eq_some.1 he).2).1
      exact fun hnil => absurd (List.drop_eq_nil_iff.1 hnil) (Nat.not_le.2 hlt)
  | grow => exact h
  | crash =>
    rw [hd.sameLog_make.log]
    exact h

/-- A restart keeps the term and the vote. -/
theorem Durable.steady_make (h : Durable rf) : Steady rf (make rf.me rf.persister) := by
  have he := h.make_eq.1
  have hterm : (make rf.me rf.persister).currentTerm = rf.currentTerm :=
    congrArg RaftState.currentTerm he
  have hvote : (make rf.me rf.persister).votedFor = rf.votedFor := congrArg RaftState.votedFor he
  refine ⟨make_me _ _, hterm.ge, fun _ => Or.inr hvote, fun hl => ?_⟩
  rw [make_state] at hl
  cases hl

end Raft

namespace Cluster

variable {c c' : Cluster n C} {a : Action n C}

/-- Each server is at its place, durable, and has a log. -/
structure Sound (c : Cluster n C) : Prop where
  me : ∀ s, (c.servers s).me = s
  durable : ∀ s, Durable (c.servers s)
  log_ne_nil : ∀ s, (c.servers s).log ≠ []

/-- What holds of all servers and of the new state of `s` holds of all servers afterwards. -/
theorem forall_set {P : Fin n → Raft n C → Prop} (hP : ∀ q, P q (c.servers q)) {s : Fin n}
    {rf : Raft n C} (hs : P s rf) (q : Fin n) : P q ((c.set s rf).servers q) := by
  by_cases hq : q = s
  · subst hq
    simpa only [set, Function.update_self] using hs
  · simpa only [set, Function.update_of_ne hq] using hP q

theorem move_set {s : Fin n} {rf : Raft n C} (h : Move (c.servers s) rf) (q : Fin n) :
    Move (c.servers q) ((c.set s rf).servers q) :=
  forall_set (P := fun q rf => Move (c.servers q) rf) (fun _ => .idle) h q

theorem Step.move (h : Step c a c') (hc : c.Sound) (q : Fin n) :
    Move (c.servers q) (c'.servers q) := by
  cases h with
  | idle => exact .idle
  | start s command hl => exact move_set (.start command hl) q
  | spawn a s gs hl hgs => exact .idle
  | preVote s hl => exact move_set (.preVote hl) q
  | election s rf args hs h =>
    obtain ⟨rfl, -⟩ := beginElection_eq_some h
    exact move_set .election q
  | dropTask k => exact .idle
  | runTask k g rpc hg hep hl hrpc => exact .idle
  | encode k g j hg hj => exact .idle
  | deliver k call rf rpc hk h => exact move_set (.handle _ _ _ h) q
  | receive k call rf hk hw he h => exact move_set (.finish _ _ _ h) q
  | lose k call hk he => exact .idle
  | commitChecker s rf msg h => exact move_set (.commitChecker _ msg h) q
  | sendSnapshot s k msg h => exact move_set (.sendSnapshot k) q
  | snapshot s index data rf h => exact move_set (.snapshot index data _ h) q
  | grow s => exact move_set .grow q
  | crash s =>
    refine move_set ?_ q
    have hcrash : Move (c.servers s) _ := Move.crash
    rwa [hc.me s] at hcrash

/-- What a step does to the log of the server `q`: nothing, or `q` takes a command, handles a
request or compacts its log. -/
inductive LogStep (c : Cluster n C) (a : Action n C) (q : Fin n) : Raft n C → Prop
  | same (rf : Raft n C) (hsame : SameLog (c.servers q) rf)
      (hterm : (c.servers q).currentTerm ≤ rf.currentTerm) : LogStep c a q rf
  | start (command : C) : LogStep c a q ((c.servers q).appendCommand command)
  | handle (k : ℕ) (call : Call n C) (rf : Raft n C) (rpc : Rpc n C) (ha : a = .deliver k)
      (hk : c.calls[k]? = some call) (hserver : call.server = q)
      (h : call.rpc.handle (c.servers q) = some (rf, rpc)) : LogStep c a q rf
  | snapshot (index : ℕ) (data : Data) (rf : Raft n C) (ha : a = .snapshot q index data)
      (h : (c.servers q).snapshot index data = some rf) : LogStep c a q rf

theorem LogStep.refl (a : Action n C) (q : Fin n) : LogStep c a q (c.servers q) :=
  .same _ (.refl _) le_rfl

theorem Step.logStep (h : Step c a c') (hc : c.Sound) (q : Fin n) :
    LogStep c a q (c'.servers q) := by
  have hset : ∀ {s : Fin n} {rf : Raft n C}, LogStep c a s rf →
      LogStep c a q ((c.set s rf).servers q) := fun h =>
    forall_set (P := fun q rf => LogStep c a q rf) (fun q => .refl a q) h q
  cases h with
  | start s command hl => exact hset (.start command)
  | preVote s hl => exact hset (.same _ ⟨rfl, rfl, rfl, rfl⟩ le_rfl)
  | election s rf args hs h =>
    obtain ⟨rfl, -⟩ := beginElection_eq_some h
    exact hset (.same _ ⟨rfl, rfl, rfl, rfl⟩ (Int.le_add_one le_rfl))
  | deliver k call rf rpc hk h => exact hset (.handle k call rf rpc rfl hk rfl h)
  | receive k call rf hk hw he h =>
    exact hset (.same rf (Rpc.sameLog_finish h) (Rpc.term_le_finish h))
  | commitChecker s rf msg h =>
    exact hset (.same rf (sameLog_commitChecker h) (calm_commitChecker h).term_le)
  | sendSnapshot s k msg h => exact hset (.same _ ⟨rfl, rfl, rfl, rfl⟩ le_rfl)
  | snapshot s index data rf h => exact hset (.snapshot index data rf rfl h)
  | grow s => exact hset (.same _ ⟨rfl, rfl, rfl, rfl⟩ le_rfl)
  | crash s =>
    have hsame := (hc.durable s).sameLog_make
    have hterm := (hc.durable s).steady_make.term_le
    rw [hc.me s] at hsame hterm
    exact hset (.same _ hsame hterm)
  | _ => exact .refl _ q

/-- The trace only grows. -/
theorem Step.trace (h : Step c a c') : c.trace <+: c'.trace := by
  cases h with
  | start s command hl => exact List.prefix_append _ _
  | receive k call rf hk hw he h => exact List.prefix_append _ _
  | commitChecker s rf msg h => exact List.prefix_append _ _
  | sendSnapshot s k msg h => exact List.prefix_append _ _
  | crash s => exact List.prefix_append _ _
  | _ => exact List.prefix_rfl

/-- A call of `Start` that is new is one to a leader, and what it appends is there. -/
theorem Step.mem_start (h : Step c a c') {s : Fin n} {i : ℕ} {t : ℤ} {command : C}
    (hmem : .start s i t command ∈ c'.trace) : .start s i t command ∈ c.trace ∨
      a = .start s command ∧ (c.servers s).state = .leader ∧
        i = (c.servers s).virtualLogIdx (c.servers s).log.length ∧
        t = (c.servers s).currentTerm ∧ c'.servers s = (c.servers s).appendCommand command := by
  cases h with
  | start r command' hl =>
    refine (List.mem_append.1 hmem).imp_right fun hmem => ?_
    cases List.mem_singleton.1 hmem
    exact ⟨rfl, hl, rfl, rfl, Function.update_self ..⟩
  | receive k call rf hk hw he h =>
    refine (List.mem_append.1 hmem).imp_right fun hmem => ?_
    rw [commitEvents] at hmem
    split at hmem
    · cases List.mem_singleton.1 hmem
    · cases hmem
  | commitChecker r rf msg h =>
    refine (List.mem_append.1 hmem).imp_right fun hmem => ?_
    obtain ⟨msg, -, heq⟩ := List.mem_map.1 hmem
    cases heq
  | sendSnapshot r k msg h =>
    exact (List.mem_append.1 hmem).imp_right fun hmem => by cases List.mem_singleton.1 hmem
  | crash r =>
    exact (List.mem_append.1 hmem).imp_right fun hmem => by cases List.mem_singleton.1 hmem
  | _ => exact Or.inl hmem

theorem sound_init : (init : Cluster n C).Sound where
  me s := make_me s {}
  durable s := Or.inr ⟨make_persister s {}, rfl, by rw [init, make_me]⟩
  log_ne_nil s := List.cons_ne_nil _ _

theorem Sound.act (hc : c.Sound) (h : Step c a c') : c'.Sound :=
  have hm := h.move hc
  { me := fun s => (hm s).me.trans (hc.me s)
    durable := fun s => (hc.durable s).move (hm s)
    log_ne_nil := fun s => (hm s).log_ne_nil (hc.durable s) (hc.log_ne_nil s) }

theorem Sound.step (hc : c.Sound) (h : c.step a = some c') : c'.Sound := by
  obtain ⟨c₀, hs, rfl⟩ := step_cases h
  have hc₀ := hc.act hs
  exact ⟨hc₀.me, hc₀.durable, hc₀.log_ne_nil⟩

theorem sound_of_run {as : List (Action n C)} (h : run step init as = some c) : c.Sound :=
  run_invariant (fun _ _ _ hc hstep => hc.step hstep) h sound_init

end Cluster

/-! ## Where messages come from -/

omit [Inhabited C] in
theorem Raft.Call.again_mem {call call' : Call n C} (h : call' ∈ call.again) :
    ∃ args reply, call.rpc = .installSnapshot args reply ∧
      call' = { call with rpc := .installSnapshot args none } := by
  unfold Call.again at h
  split at h
  · rename_i args reply hrpc
    exact ⟨args, reply, hrpc, List.mem_singleton.1 h⟩
  · cases h

/-- A call without its reply. -/
def Raft.Rpc.request : Rpc n C → Rpc n C
  | .appendEntries args _ => .appendEntries args none
  | .requestVote args _ => .requestVote args none
  | .preVote _ => .preVote none
  | .installSnapshot args _ => .installSnapshot args none

theorem Raft.Rpc.request_handle {rf rf' : Raft n C} {rpc rpc' : Rpc n C}
    (h : rpc.handle rf = some (rf', rpc')) : rpc'.request = rpc.request := by
  rcases Rpc.handle_cases h with ⟨args, reply, rfl, rfl, -⟩ | ⟨args, reply, rfl, rfl, -⟩ |
    ⟨rfl, rfl, -⟩ | ⟨args, reply, rfl, rfl, -⟩ <;> rfl

/-- An `AppendEntries` request is what its goroutine was started with. -/
theorem Raft.Task.eq_of_rpc {rf : Raft n C} {task : Task n C} {args : AppendEntriesArgs n C}
    {reply : Option AppendEntriesReply} (h : task.rpc rf = some (.appendEntries args reply)) :
    task = .sendAppendEntries args := by
  cases task with
  | sendAppendEntries args' =>
    cases h
    rfl
  | handleInstallSnapshot =>
    obtain ⟨args', -, h⟩ := Option.map_eq_some_iff.1 h
    cases h

namespace Cluster

variable {c c' : Cluster n C} {a : Action n C}

/-- A goroutine was there before, perhaps with fewer entries encoded, or a leader has started it. -/
theorem Step.mem_tasks (h : Step c a c') {t : Spawned n C} (ht : t ∈ c'.tasks) :
    (∃ old ∈ c.tasks, ∃ j, t = { old with encoded := j } ∧ old.encoded.getD 0 ≤ j.getD 0) ∨
      ∃ s i, (c.servers s).state = .leader ∧ (c.servers s).doLeaderFor i = some (i, t.task) ∧
        t = ⟨s, c.epoch s, i, t.task, (c.servers s).array, none⟩ ∧
        c'.servers = c.servers ∧ c'.epoch = c.epoch := by
  have hold : t ∈ c.tasks → (∃ old ∈ c.tasks, ∃ j, t = { old with encoded := j } ∧
      old.encoded.getD 0 ≤ j.getD 0) := fun h => ⟨t, h, t.encoded, rfl, le_rfl⟩
  cases h with
  | spawn a s gs hl hgs =>
    rcases List.mem_append.1 ht with ht | ht
    · exact Or.inl (hold ht)
    · obtain ⟨⟨i, task⟩, hg, rfl⟩ := List.mem_map.1 ht
      exact Or.inr ⟨s, i, hl, (doLeader_mem hgs hg).2, rfl, rfl, rfl⟩
  | dropTask k => exact Or.inl (hold (List.mem_of_mem_eraseIdx ht))
  | runTask k g rpc hg hep hl hrpc => exact Or.inl (hold (List.mem_of_mem_eraseIdx ht))
  | encode k g j hg hj =>
    rcases List.mem_or_eq_of_mem_set ht with ht | rfl
    · exact Or.inl (hold ht)
    · exact Or.inl ⟨g, List.mem_of_getElem? hg, some j, rfl, hj⟩
  | _ => exact Or.inl (hold ht)

/-- A call was made before, or is made by a goroutine of a leader or for a vote. -/
theorem Step.mem_calls (h : Step c a c') {call : Call n C} (hcall : call ∈ c'.calls) :
    (∃ old ∈ c.calls, call.rpc.request = old.rpc.request) ∨
    (∃ t ∈ c.tasks, (t.task = .handleInstallSnapshot → (c.servers t.caller).state = .leader) ∧
      t.task.rpc (c.servers t.caller) = some call.rpc) ∨
    call.rpc = .preVote none ∨ ∃ args, call.rpc = .requestVote args none := by
  have hset : ∀ {k : ℕ} {old new : Call n C}, c.calls[k]? = some old →
      call ∈ c.calls.set k new → new.rpc.request = old.rpc.request →
      ∃ old ∈ c.calls, call.rpc.request = old.rpc.request := by
    intro k old new hk hmem hnew
    rcases List.mem_or_eq_of_mem_set hmem with hmem | rfl
    · exact ⟨call, hmem, rfl⟩
    · exact ⟨old, List.mem_of_getElem? hk, hnew⟩
  cases h with
  | preVote s hl =>
    rcases List.mem_append.1 hcall with hcall | hcall
    · exact Or.inl ⟨call, hcall, rfl⟩
    · obtain ⟨q, -, rfl⟩ := List.mem_map.1 hcall
      exact Or.inr (Or.inr (Or.inl rfl))
  | election s rf args hs h =>
    rcases List.mem_append.1 hcall with hcall | hcall
    · exact Or.inl ⟨call, hcall, rfl⟩
    · obtain ⟨q, -, rfl⟩ := List.mem_map.1 hcall
      exact Or.inr (Or.inr (Or.inr ⟨args, rfl⟩))
  | runTask k t rpc ht hep hl hrpc =>
    rcases List.mem_append.1 hcall with hcall | hcall
    · exact Or.inl ⟨call, hcall, rfl⟩
    · obtain ⟨q, -, rfl⟩ := List.mem_map.1 hcall
      exact Or.inr (Or.inl ⟨t, ht, hl, hrpc⟩)
  | deliver k old rf rpc hk h => exact Or.inl (hset hk hcall (Rpc.request_handle h))
  | receive k old rf hk hw he h => exact Or.inl (hset hk hcall rfl)
  | lose k old hk he =>
    rcases List.mem_append.1 hcall with hcall | hcall
    · exact Or.inl (hset hk hcall rfl)
    · obtain ⟨args, reply, hrpc, rfl⟩ := Call.again_mem hcall
      exact Or.inl ⟨old, List.mem_of_getElem? hk, by rw [hrpc]; rfl⟩
  | _ => exact Or.inl ⟨call, hcall, rfl⟩

theorem Step.mem_appendEntries (h : Step c a c') {call : Call n C} (hcall : call ∈ c'.calls)
    {args : AppendEntriesArgs n C} {reply : Option AppendEntriesReply}
    (hargs : call.rpc = .appendEntries args reply) :
    (∃ old ∈ c.calls, ∃ reply', old.rpc = .appendEntries args reply') ∨
    ∃ t ∈ c.tasks, t.task = .sendAppendEntries args := by
  rcases h.mem_calls hcall with ⟨old, hold, heq⟩ | ⟨t, ht, -, hrpc⟩ | hvote | ⟨args', hvote⟩
  · rw [hargs] at heq
    cases hrpc : old.rpc <;> rw [hrpc] at heq <;> cases heq
    exact Or.inl ⟨old, hold, _, hrpc⟩
  · rw [hargs] at hrpc
    exact Or.inr ⟨t, ht, Task.eq_of_rpc hrpc⟩
  · rw [hargs] at hvote
    cases hvote
  · rw [hargs] at hvote
    cases hvote

theorem Step.mem_installSnapshot (h : Step c a c') {call : Call n C} (hcall : call ∈ c'.calls)
    {args : InstallSnapshotArgs n C} {reply : Option InstallSnapshotReply}
    (hargs : call.rpc = .installSnapshot args reply) :
    (∃ old ∈ c.calls, ∃ reply', old.rpc = .installSnapshot args reply') ∨
    ∃ s, (c.servers s).state = .leader ∧ (c.servers s).installSnapshotArgs = some args := by
  rcases h.mem_calls hcall with ⟨old, hold, heq⟩ | ⟨t, -, hl, hrpc⟩ | hvote | ⟨args', hvote⟩
  · rw [hargs] at heq
    cases hrpc : old.rpc <;> rw [hrpc] at heq <;> cases heq
    exact Or.inl ⟨old, hold, _, hrpc⟩
  · rw [hargs] at hrpc
    cases htask : t.task with
    | sendAppendEntries args' =>
      rw [htask] at hrpc
      cases hrpc
    | handleInstallSnapshot =>
      rw [htask] at hrpc
      obtain ⟨args', hargs', hrpc⟩ := Option.map_eq_some_iff.1 hrpc
      cases hrpc
      exact Or.inr ⟨t.caller, hl htask, hargs'⟩
  · rw [hargs] at hvote
    cases hvote
  · rw [hargs] at hvote
    cases hvote

end Cluster

/-- **Durability.** After every step of every run, each server has saved its persistent fields and
its snapshot as they are in memory, or has saved nothing and still has the values that `Make` gives
it first. A server that stops there and starts again has the same fields and snapshot, and takes the
entries up to its snapshot as committed and applied. -/
theorem durability {c : Cluster n C} {as : List (Action n C)}
    (h : run Cluster.step Cluster.init as = some c) (s : Fin n) :
    Durable (c.servers s) ∧
      (make s (c.servers s).persister).encodeState = (c.servers s).encodeState ∧
      (make s (c.servers s).persister).snapShot = (c.servers s).snapShot ∧
      (make s (c.servers s).persister).commitIndex = (c.servers s).lastIncludedIndex ∧
      (make s (c.servers s).persister).lastApplied = (c.servers s).lastIncludedIndex := by
  have hc := Cluster.sound_of_run h
  have hd := hc.durable s
  have hmake := hd.make_eq
  rw [hc.me s] at hmake
  have hbase : (make s (c.servers s).persister).lastIncludedIndex =
      (c.servers s).lastIncludedIndex := congrArg RaftState.lastIncludedIndex hmake.1
  exact ⟨hd, hmake.1, hmake.2, by rw [make_commitIndex, hbase], by rw [make_lastApplied, hbase]⟩

/-- A leader is elected and takes a command. -/
def startedRun : List (Action 3 ℕ) :=
  [.timeout 0, .deliver 0, .receive 0, .timeout 0, .deliver 2, .receive 2, .start 0 7]

theorem durability_startedRun :
    ∃ c : Cluster 3 ℕ, run Cluster.step Cluster.init startedRun = some c ∧
      (c.servers 0).persister.raftstate =
        some ⟨2, some 0, [⟨-1, 0⟩, ⟨2, 7⟩], 0, -1⟩ ∧
      (make 0 (c.servers 0).persister).encodeState = (c.servers 0).encodeState := by
  have h : ∃ c : Cluster 3 ℕ, run Cluster.step Cluster.init startedRun = some c ∧
      (c.servers 0).persister.raftstate = some ⟨2, some 0, [⟨-1, 0⟩, ⟨2, 7⟩], 0, -1⟩ := by
    decide +kernel
  obtain ⟨c, hc, hstate⟩ := h
  exact ⟨c, hc, hstate, (durability hc 0).2.1⟩

end DistSys
