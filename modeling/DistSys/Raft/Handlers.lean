import DistSys.Raft.Cluster

/-!
# What each handler can do

For every handler, the cases of its result with the conditions under which they occur. Later
modules use these lemmas and never unfold a handler. They are followed by two facts that all
handlers share:

* `Calm` — what a step may do to the term, the vote and the role, elections apart.
* `Durable` — the five persistent fields and the snapshot are the saved ones.
-/

namespace DistSys.Raft

variable {n : ℕ} {C : Type} [Inhabited C] {rf rf' : Raft n C}

/-- Become a follower of term `t` that has not voted. -/
def follow (rf : Raft n C) (t : ℤ) : Raft n C :=
  { rf with currentTerm := t, state := .follower, votedFor := none }

/-- Become a follower of term `t` that has voted for `q`. -/
def grant (rf : Raft n C) (t : ℤ) (q : Fin n) : Raft n C :=
  { rf with currentTerm := t, state := .follower, votedFor := some q }

/-! ## Votes -/

/-- The test of `RequestVote` on the candidate's log. -/
def LogUpToDate (rf : Raft n C) (args : RequestVoteArgs n) : Prop :=
  ∃ last, rf.log.getLast? = some last ∧
    (last.term < args.lastLogTerm ∨
      (args.lastLogTerm = last.term ∧ rf.virtualLogIdx rf.log.length ≤ args.lastLogIndex))

theorem requestVote_cases {args : RequestVoteArgs n} {reply : RequestVoteReply}
    (h : rf.requestVote args = some (rf', reply)) :
    (rf' = rf ∧ reply.voteGranted = false) ∨
    (rf.currentTerm < args.term ∧ rf' = (rf.follow args.term).persist ∧
      reply.voteGranted = false) ∨
    (rf.currentTerm ≤ args.term ∧
      (args.term = rf.currentTerm → rf.votedFor = none ∨ rf.votedFor = some args.candidateId) ∧
      rf.LogUpToDate args ∧ rf' = (rf.grant args.term args.candidateId).persist ∧
      reply.voteGranted = true) := by
  unfold requestVote at h
  simp only [Option.bind_eq_bind] at h
  split at h
  · cases h
    exact Or.inl ⟨rfl, rfl⟩
  rename_i hlow
  by_cases hnew : args.term > rf.currentTerm
  · simp only [if_pos hnew] at h
    split at h
    · rename_i hvote
      obtain ⟨last, hlast, h⟩ := Option.bind_eq_some_iff.1 h
      split at h
      · rename_i hup
        cases h
        refine Or.inr (Or.inr ⟨by omega, fun he => by omega, ⟨last, hlast, ?_⟩, rfl, rfl⟩)
        exact hup
      · cases h
        exact Or.inr (Or.inl ⟨hnew, rfl, rfl⟩)
    · cases h
      exact Or.inr (Or.inl ⟨hnew, rfl, rfl⟩)
  · simp only [if_neg hnew] at h
    split at h
    · rename_i hvote
      obtain ⟨last, hlast, h⟩ := Option.bind_eq_some_iff.1 h
      split at h
      · rename_i hup
        cases h
        exact Or.inr (Or.inr ⟨by omega, fun _ => hvote, ⟨last, hlast, hup⟩, rfl, rfl⟩)
      · cases h
        exact Or.inl ⟨rfl, rfl⟩
    · cases h
      exact Or.inl ⟨rfl, rfl⟩

/-- A vote counted; with a majority of votes the server becomes the leader. -/
def countVote (rf : Raft n C) : Raft n C :=
  if rf.voteCount + 1 > n / 2 then
    { rf with
      voteCount := rf.voteCount + 1
      state := .leader
      nextIndex := fun _ => rf.virtualLogIdx rf.log.length
      matchIndex := fun _ => 0 }
  else { rf with voteCount := rf.voteCount + 1 }

theorem sendRequestVote_cases (rf : Raft n C) (args : RequestVoteArgs n)
    (reply : RequestVoteReply) :
    rf.sendRequestVote args reply = rf ∨
    (rf.currentTerm = args.term ∧ reply.voteGranted = false ∧
      rf.sendRequestVote args reply = { rf with state := .follower }) ∨
    (rf.currentTerm = args.term ∧ reply.voteGranted = true ∧ rf.voteCount ≤ n / 2 ∧
      rf.sendRequestVote args reply = rf.countVote) := by
  unfold sendRequestVote
  split
  · exact Or.inl rfl
  split
  · exact Or.inl rfl
  rename_i hterm
  split
  · rename_i hgranted
    split
    · exact Or.inl rfl
    split
    · exact Or.inl rfl
    · rename_i hcount
      exact Or.inr (Or.inr ⟨not_not.1 hterm, hgranted, Nat.not_lt.1 hcount, rfl⟩)
  · rename_i hrefused
    exact Or.inr (Or.inl ⟨not_not.1 hterm, Bool.eq_false_iff.2 hrefused, rfl⟩)

theorem sendPreVote_cases (rf : Raft n C) (reply : PreVoteReply) :
    rf.sendPreVote reply = rf ∨
    (rf.state = .preCandidate ∧ ∃ r, r ≠ Role.leader ∧
      rf.sendPreVote reply = { rf with preVoteCount := rf.preVoteCount + 1, state := r }) := by
  unfold sendPreVote
  split
  · exact Or.inl rfl
  split
  · exact Or.inl rfl
  rename_i hpre
  have hpre := not_not.1 hpre
  simp only []
  split
  · exact Or.inr ⟨hpre, .candidate, by decide, rfl⟩
  · exact Or.inr ⟨hpre, .preCandidate, by decide, by rw [← hpre]⟩

/-- A candidate of the next term. -/
def campaign (rf : Raft n C) : Raft n C :=
  ({ rf with
      currentTerm := rf.currentTerm + 1
      votedFor := some rf.me
      voteCount := 1 }).persist

theorem beginElection_eq_some {args : RequestVoteArgs n}
    (h : rf.beginElection = some (rf', args)) :
    rf' = rf.campaign ∧ ∃ last, rf.log.getLast? = some last ∧
      args = ⟨rf.currentTerm + 1, rf.me, rf.virtualLogIdx rf.log.length, last.term⟩ := by
  unfold beginElection at h
  obtain ⟨last, hlast, h⟩ := Option.bind_eq_some_iff.1 h
  cases h
  exact ⟨rfl, last, hlast, rfl⟩

/-! ## Replication -/

/-- The leader's log and `nextIndex` after `Start`. -/
def appendCommand (rf : Raft n C) (command : C) : Raft n C :=
  ({ rf with
      log := rf.log ++ [LogEntry.mk rf.currentTerm command]
      nextIndex :=
        Function.update rf.nextIndex rf.me (rf.virtualLogIdx (rf.log.length + 1)) }).persist

theorem start_of_leader (hl : rf.state = .leader) (command : C) :
    rf.start command =
      (rf.appendCommand command, some (rf.virtualLogIdx rf.log.length, rf.currentTerm)) := by
  rw [start, if_neg (not_not.2 hl)]
  simp only [appendCommand, persist, virtualLogIdx, encodeState, List.length_append,
    List.length_cons, List.length_nil, Nat.zero_add, Nat.add_sub_cancel]

theorem start_of_ne_leader (hl : rf.state ≠ .leader) (command : C) :
    rf.start command = (rf, none) := by
  rw [start, if_pos hl]

theorem doLeaderFor_eq_some {i j : Fin n} {task : Task n C}
    (h : rf.doLeaderFor i = some (j, task)) :
    j = i ∧ (task = .handleInstallSnapshot ∨
      ∃ prev, rf.logAt (rf.nextIndex i - 1) = some prev ∧
        task = .sendAppendEntries
          { term := rf.currentTerm
            leaderId := rf.me
            prevLogIndex := rf.nextIndex i - 1
            prevLogTerm := prev.term
            entries := rf.log.drop (rf.nextIndex i - 1 - rf.lastIncludedIndex + 1)
            leaderCommit := rf.commitIndex }) := by
  unfold doLeaderFor at h
  simp only at h
  split at h
  · cases h
    exact ⟨rfl, Or.inl rfl⟩
  rename_i hlow
  obtain ⟨prev, hprev, h⟩ := Option.bind_eq_some_iff.1 h
  cases h
  refine ⟨rfl, Or.inr ⟨prev, hprev, ?_⟩⟩
  have hr : (rf.realLogIdx (rf.nextIndex i - 1 + 1)).toNat =
      rf.nextIndex i - 1 - rf.lastIncludedIndex + 1 := by
    rw [realLogIdx]
    omega
  rw [hr]
  split
  · rfl
  · rename_i hlast
    rw [lastLogIdx, virtualLogIdx] at hlast
    rw [List.drop_eq_nil_of_le (by omega)]

theorem exists_of_mem_mapM {α β : Type} {f : α → Option β} {l : List α} {l' : List β}
    (h : l.mapM f = some l') {b : β} (hb : b ∈ l') : ∃ a ∈ l, f a = some b := by
  induction l generalizing l' with
  | nil =>
    cases h
    simp at hb
  | cons a l ih =>
    rw [List.mapM_cons] at h
    obtain ⟨b', hb', h⟩ := Option.bind_eq_some_iff.1 h
    obtain ⟨bs, hbs, h⟩ := Option.bind_eq_some_iff.1 h
    cases h
    rcases List.mem_cons.1 hb with rfl | hb
    · exact ⟨a, List.mem_cons_self, hb'⟩
    · obtain ⟨a', ha', hf⟩ := ih hbs hb
      exact ⟨a', List.mem_cons_of_mem a ha', hf⟩

theorem doLeader_mem {gs : List (Fin n × Task n C)} (h : rf.doLeader = some gs)
    {i : Fin n} {task : Task n C} (hg : (i, task) ∈ gs) :
    i ≠ rf.me ∧ rf.doLeaderFor i = some (i, task) := by
  obtain ⟨j, hj, hf⟩ := exists_of_mem_mapM h hg
  obtain ⟨rfl, -⟩ := doLeaderFor_eq_some hf
  exact ⟨mem_otherPeers.1 hj, hf⟩

/-- The peers among `is` that are known to hold index `N`. -/
def holders (rf : Raft n C) (N : ℕ) (is : List (Fin n)) : List (Fin n) :=
  is.filter fun i => rf.matchIndex i ≥ N

/-- Only an entry of the current term is counted. -/
theorem countPeers_eq_some {N : ℕ} {is : List (Fin n)} {count k : ℕ}
    (h : rf.countPeers N is count = some k) :
    k = count ∨ (k ≤ count + (rf.holders N is).length ∧
      ∃ e, rf.logAt N = some e ∧ e.term = rf.currentTerm) := by
  induction is generalizing count with
  | nil =>
    rw [countPeers, Option.some.injEq] at h
    exact Or.inl h.symm
  | cons i is ih =>
    rw [countPeers] at h
    split at h
    · rename_i hi
      obtain ⟨e, he, h⟩ := Option.bind_eq_some_iff.1 h
      have hlen : (rf.holders N (i :: is)).length = (rf.holders N is).length + 1 := by
        rw [holders, List.filter_cons_of_pos (by simpa using hi), List.length_cons, holders]
      split at h
      · rename_i het
        refine Or.inr ⟨?_, e, he, het⟩
        rcases ih h with hk | ⟨hk, -⟩ <;> omega
      · rcases ih h with hk | ⟨hk, he'⟩
        · exact Or.inl hk
        · exact Or.inr ⟨by omega, he'⟩
    · rename_i hi
      have hlen : rf.holders N (i :: is) = rf.holders N is := by
        rw [holders, List.filter_cons_of_neg (by simpa using hi), holders]
      rw [hlen]
      exact ih h

theorem advanceCommit_cases {N : ℕ} (h : rf.advanceCommit N = some rf') :
    rf' = rf ∨ ∃ N', rf.commitIndex < N' ∧ N' ≤ N ∧ rf' = ({ rf with commitIndex := N' }).signal ∧
      ∃ k, n / 2 < k ∧ rf.countPeers N' rf.otherPeers 1 = some k := by
  induction N with
  | zero =>
    cases h
    exact Or.inl rfl
  | succ N ih =>
    rw [advanceCommit] at h
    split at h
    · rename_i hN
      obtain ⟨k, hk, h⟩ := Option.bind_eq_some_iff.1 h
      split at h
      · rename_i hmaj
        cases h
        exact Or.inr ⟨N + 1, hN, le_rfl, rfl, k, hmaj, hk⟩
      · rcases ih h with rfl | ⟨N', hN', hle, hrest⟩
        · exact Or.inl rfl
        · exact Or.inr ⟨N', hN', by omega, hrest⟩
    · cases h
      exact Or.inl rfl

/-- `matchIndex` and `nextIndex` after a success. -/
def recordMatch (rf : Raft n C) (server : Fin n) (matched : ℕ) : Raft n C :=
  { rf with
    matchIndex := Function.update rf.matchIndex server matched
    nextIndex := Function.update rf.nextIndex server (matched + 1) }

theorem sendAppendEntries_cases {server : Fin n} {args : AppendEntriesArgs n C}
    {reply : AppendEntriesReply} (h : rf.sendAppendEntries server args reply = some rf') :
    (∃ next, rf' = { rf with nextIndex := next }) ∨
    (rf.currentTerm < reply.term ∧
      rf' = ({ rf.follow reply.term with voteCount := 0 }).persist) ∨
    (reply.success = true ∧ rf.currentTerm ≤ args.term ∧
      (rf.recordMatch server (args.prevLogIndex + args.entries.length)).advanceCommit
        rf.lastLogIdx = some rf') := by
  unfold sendAppendEntries at h
  split at h
  · cases h
    exact Or.inl ⟨rf.nextIndex, rfl⟩
  split at h
  · cases h
    exact Or.inl ⟨rf.nextIndex, rfl⟩
  rename_i hterm
  split at h
  · split at h
    · rename_i hnew
      cases h
      exact Or.inr (Or.inl ⟨hnew, rfl⟩)
    split at h
    · obtain ⟨next, -, h⟩ := Option.bind_eq_some_iff.1 h
      cases h
      exact Or.inl ⟨_, rfl⟩
    · cases h
      exact Or.inl ⟨rf.nextIndex, rfl⟩
  · rename_i hs
    exact Or.inr (Or.inr ⟨by simpa using hs, Int.not_lt.1 hterm, h⟩)

theorem handleInstallSnapshot_cases (rf : Raft n C) (server : Fin n)
    (reply : InstallSnapshotReply) :
    (∃ next, rf.handleInstallSnapshot server reply = { rf with nextIndex := next }) ∨
    (rf.currentTerm < reply.term ∧
      rf.handleInstallSnapshot server reply = (rf.follow reply.term).persist) := by
  unfold handleInstallSnapshot
  split
  · exact Or.inl ⟨rf.nextIndex, rfl⟩
  split
  · rename_i hnew
    exact Or.inr ⟨hnew, rfl⟩
  · exact Or.inl ⟨_, rfl⟩

theorem installSnapshotArgs_eq_some {args : InstallSnapshotArgs n C}
    (h : rf.installSnapshotArgs = some args) :
    args.term = rf.currentTerm ∧ args.leaderId = rf.me ∧
      args.lastIncludedIndex = rf.lastIncludedIndex ∧
      args.lastIncludedTerm = rf.lastIncludedTerm ∧ args.data = rf.snapShot := by
  obtain ⟨first, -, h⟩ := Option.bind_eq_some_iff.1 h
  cases h
  exact ⟨rfl, rfl, rfl, rfl, rfl⟩

/-- `commitCh` reaches `CommitChecker` only while it is receiving. -/
def Woken (before after : Checker C) : Prop :=
  after = before ∨ (before = .waiting ∧ after = .woken)

theorem signal_eq (rf : Raft n C) :
    ∃ ch, rf.signal = { rf with checker := ch } ∧ Woken rf.checker ch := by
  unfold signal
  split
  · rename_i hw
    exact ⟨.woken, rfl, Or.inr ⟨hw, rfl⟩⟩
  · exact ⟨rf.checker, rfl, Or.inl rfl⟩

/-- The position in the log of the first new entry of a request. -/
def insertAt (rf : Raft n C) (args : AppendEntriesArgs n C) : ℕ :=
  args.prevLogIndex - rf.lastIncludedIndex + 1

/-- The log after the entries of a request have been merged. -/
def mergedLog (rf : Raft n C) (args : AppendEntriesArgs n C) : List (LogEntry C) :=
  mergeEntries rf.log (rf.insertAt args) args.entries

/-- `es` has the terms of `log` from position `ridx` on, up to position `ridx + j`. -/
def AgreeUpTo (log : List (LogEntry C)) (ridx : ℕ) (es : List (LogEntry C)) (j : ℕ) : Prop :=
  ∀ i e, i < j → es[i]? = some e → ∃ e', log[ridx + i]? = some e' ∧ e'.term = e.term

omit [Inhabited C] in
/-- The merged log is the old one if it has the terms of the new entries, and else the old one up
to the first entry that differs or is missing, followed by the new entries from there on. -/
theorem mergeEntries_cases {log : List (LogEntry C)} {ridx : ℕ} (hr : ridx ≤ log.length)
    (es : List (LogEntry C)) :
    (mergeEntries log ridx es = log ∧ AgreeUpTo log ridx es es.length) ∨
    ∃ j, j < es.length ∧ ridx + j ≤ log.length ∧ AgreeUpTo log ridx es j ∧
      (∀ e e', es[j]? = some e → log[ridx + j]? = some e' → e'.term ≠ e.term) ∧
      mergeEntries log ridx es = log.take (ridx + j) ++ es.drop j := by
  induction es generalizing ridx with
  | nil => exact Or.inl ⟨rfl, fun i e hi he => by simp at he⟩
  | cons e es ih =>
    rw [mergeEntries]
    cases hlog : log[ridx]? with
    | some e' =>
      have hlt := (List.getElem?_eq_some_iff.1 hlog).1
      simp only
      split
      · rename_i hne
        refine Or.inr ⟨0, by simp, hr, fun i f hi => by omega, fun f f' hf hf' => ?_, rfl⟩
        rw [List.getElem?_cons_zero, Option.some.injEq] at hf
        rw [Nat.add_zero, hlog, Option.some.injEq] at hf'
        rwa [← hf, ← hf']
      · rename_i heq
        have hfirst : ∀ {j}, AgreeUpTo log (ridx + 1) es j →
            AgreeUpTo log ridx (e :: es) (j + 1) := by
          intro j hj i f hi hf
          cases i with
          | zero =>
            rw [List.getElem?_cons_zero, Option.some.injEq] at hf
            exact ⟨e', by rwa [Nat.add_zero], hf ▸ not_not.1 heq⟩
          | succ i =>
            rw [List.getElem?_cons_succ] at hf
            rw [show ridx + (i + 1) = ridx + 1 + i by omega]
            exact hj i f (by omega) hf
        have hr' : ridx + 1 ≤ log.length := hlt
        rcases ih hr' with ⟨hm, hag⟩ | ⟨j, hj, hlen, hag, hne, hm⟩
        · exact Or.inl ⟨hm, hfirst hag⟩
        · refine Or.inr ⟨j + 1, by simpa using hj, by omega, hfirst hag, ?_, ?_⟩
          · intro f f' hf hf'
            rw [List.getElem?_cons_succ] at hf
            rw [show ridx + (j + 1) = ridx + 1 + j by omega] at hf'
            exact hne f f' hf hf'
          · rw [hm, List.drop_succ_cons, show ridx + (j + 1) = ridx + 1 + j by omega]
    | none =>
      have hend : ridx = log.length := by
        have := List.getElem?_eq_none_iff.1 hlog
        omega
      simp only [if_pos hend]
      refine Or.inr ⟨0, by simp, hr, fun i f hi => by omega, fun f f' _ hf' => ?_, ?_⟩
      · rw [Nat.add_zero, hlog] at hf'
        cases hf'
      · rw [Nat.add_zero, hend, List.take_length, List.drop_zero]

/-- What stands below the new entries is kept. -/
theorem take_mergedLog {args : AppendEntriesArgs n C} {prev : LogEntry C}
    (hprev : rf.logAt args.prevLogIndex = some prev) :
    (rf.mergedLog args).take (rf.insertAt args) = rf.log.take (rf.insertAt args) := by
  obtain ⟨hle, hprev⟩ := logAt_eq_some.1 hprev
  have hr : rf.insertAt args ≤ rf.log.length := (List.getElem?_eq_some_iff.1 hprev).1
  rw [mergedLog]
  rcases mergeEntries_cases hr args.entries with ⟨heq, -⟩ | ⟨j, -, hlen, -, -, heq⟩
  · rw [heq]
  · rw [heq, List.take_append_of_le_length (by rw [List.length_take]; omega), List.take_take,
      Nat.min_eq_left (by omega)]

/-- `commitIndex` after a request has been accepted. -/
def followedCommit (rf : Raft n C) (args : AppendEntriesArgs n C) : ℕ :=
  if args.leaderCommit > rf.commitIndex then
    min args.leaderCommit (rf.virtualLogIdx ((rf.mergedLog args).length - 1))
  else rf.commitIndex

theorem followCommit_eq (rf : Raft n C) (leaderCommit : ℕ) :
    ∃ ch, rf.followCommit leaderCommit =
      { rf with
        commitIndex :=
          if leaderCommit > rf.commitIndex then
            min leaderCommit (rf.virtualLogIdx (rf.log.length - 1))
          else rf.commitIndex
        checker := ch } ∧ Woken rf.checker ch := by
  unfold followCommit
  split
  · obtain ⟨ch, hch, hw⟩ := signal_eq
      { rf with commitIndex := min leaderCommit (rf.virtualLogIdx (rf.log.length - 1)) }
    exact ⟨ch, hch, hw⟩
  · exact ⟨rf.checker, rfl, Or.inl rfl⟩

/-- The server after a request has been accepted, when its state was saved before. -/
theorem acceptEntries_eq (rf : Raft n C) (args : AppendEntriesArgs n C) :
    ∃ ch, rf.persist.acceptEntries args =
      { ({ rf with log := rf.mergedLog args }).persist with
        commitIndex := rf.followedCommit args
        checker := ch } ∧ Woken rf.checker ch := by
  have hlog : (if args.entries.length ≠ 0 then
      ({ rf.persist with
          log := mergeEntries rf.log ((rf.realLogIdx args.prevLogIndex).toNat + 1)
            args.entries }).persist
      else rf.persist) = ({ rf with log := rf.mergedLog args }).persist := by
    split
    · have hr : (rf.realLogIdx args.prevLogIndex).toNat + 1 = rf.insertAt args := by
        rw [realLogIdx, insertAt]
        omega
      rw [hr, mergedLog]
      rfl
    · rename_i hnil
      have hnil : args.entries = [] := List.length_eq_zero_iff.1 (not_not.1 hnil)
      rw [mergedLog, hnil, mergeEntries]
  obtain ⟨ch, hch, hw⟩ :=
    followCommit_eq ({ rf with log := rf.mergedLog args }).persist args.leaderCommit
  refine ⟨ch, ?_, hw⟩
  rw [← hlog] at hch
  refine hch.trans ?_
  rw [hlog]
  rfl

theorem appendEntries_cases {args : AppendEntriesArgs n C} {reply : AppendEntriesReply}
    (h : rf.appendEntries args = some (rf', reply)) :
    (rf' = rf ∧ reply.success = false) ∨
    (rf.currentTerm ≤ args.term ∧ reply.success = false ∧
      rf' = (rf.adoptTerm args.term).persist) ∨
    (rf.currentTerm ≤ args.term ∧ reply.success = true ∧
      (∃ prev, rf.logAt args.prevLogIndex = some prev ∧ prev.term = args.prevLogTerm) ∧
      rf' = ((rf.adoptTerm args.term).persist).acceptEntries args) := by
  unfold appendEntries at h
  simp only at h
  split at h
  · cases h
    exact Or.inl ⟨rfl, rfl⟩
  rename_i hterm
  have hterm := Int.not_lt.1 hterm
  split at h
  · cases h
    exact Or.inr (Or.inl ⟨hterm, rfl, rfl⟩)
  split at h
  · cases h
    exact Or.inr (Or.inl ⟨hterm, rfl, rfl⟩)
  obtain ⟨prev, hprev, h⟩ := Option.bind_eq_some_iff.1 h
  have hprev' : rf.logAt args.prevLogIndex = some prev := by
    rw [← hprev, adoptTerm]
    split <;> rfl
  split at h
  · cases h
    exact Or.inr (Or.inl ⟨hterm, rfl, rfl⟩)
  · rename_i heq
    cases h
    exact Or.inr (Or.inr ⟨hterm, rfl, ⟨prev, hprev', not_not.1 heq⟩, rfl⟩)

/-! ## Snapshots -/

omit [Inhabited C] in
theorem findEntry_cases (base index : ℕ) (term : ℤ) (r : ℕ) (log : List (LogEntry C)) :
    (∃ k e, findEntry base index term r log = some (r + k) ∧ log[k]? = some e ∧ e.term = term ∧
      base + r + k = index) ∨
    (findEntry base index term r log = none ∧
      ∀ k e, log[k]? = some e → base + r + k = index → e.term ≠ term) := by
  induction log generalizing r with
  | nil => exact Or.inr ⟨rfl, fun k e he => by simp at he⟩
  | cons e log ih =>
    rw [findEntry]
    split
    · rename_i hfound
      exact Or.inl ⟨0, e, rfl, rfl, hfound.2, by omega⟩
    · rename_i hnot
      rcases ih (r + 1) with ⟨k, f, hk, hf, hterm, hi⟩ | ⟨hnone, hall⟩
      · exact Or.inl ⟨k + 1, f, by rw [hk]; congr 1; omega, hf, hterm, by omega⟩
      · refine Or.inr ⟨hnone, fun k f hf hi ht => ?_⟩
        cases k with
        | zero =>
          rw [List.getElem?_cons_zero, Option.some.injEq] at hf
          exact hnot ⟨by omega, hf ▸ ht⟩
        | succ k => exact hall k f hf (by omega) ht

/-- The log after `InstallSnapshot`: cut at the snapshot's last entry if that is there, and emptied
otherwise. -/
theorem installedLog_cases (rf : Raft n C) (args : InstallSnapshotArgs n C) :
    (∃ k e, rf.log[k]? = some e ∧ e.term = args.lastIncludedTerm ∧
      rf.lastIncludedIndex + k = args.lastIncludedIndex ∧
      rf.installedLog args = rf.log.drop k) ∨
    ((∀ k e, rf.log[k]? = some e → rf.lastIncludedIndex + k = args.lastIncludedIndex →
        e.term ≠ args.lastIncludedTerm) ∧
      rf.installedLog args = [⟨rf.lastIncludedTerm, args.lastIncludedCmd⟩]) := by
  unfold installedLog
  rcases findEntry_cases rf.lastIncludedIndex args.lastIncludedIndex args.lastIncludedTerm 0 rf.log
    with ⟨k, e, hk, he, hterm, hi⟩ | ⟨hnone, hall⟩
  · exact Or.inl ⟨k, e, he, hterm, by omega, by rw [hk, Nat.zero_add]⟩
  · exact Or.inr ⟨fun k e he hi => hall k e he (by omega), by rw [hnone]⟩

/-- The log that is cut stays in its array, and the emptied one has a new array. -/
theorem installedArray_cases (rf : Raft n C) (args : InstallSnapshotArgs n C) :
    (rf.installedArray args = rf.array ∧ ∃ k, rf.lastIncludedIndex + k = args.lastIncludedIndex ∧
      rf.installedLog args = rf.log.drop k) ∨ rf.installedArray args = rf.array + 1 := by
  unfold installedArray installedLog
  rcases findEntry_cases rf.lastIncludedIndex args.lastIncludedIndex args.lastIncludedTerm 0 rf.log
    with ⟨k, e, hk, -, -, hi⟩ | ⟨hnone, -⟩
  · rw [hk]
    exact Or.inl ⟨rfl, k, by omega, by rw [Nat.zero_add]⟩
  · rw [hnone]
    exact Or.inr rfl

/-- The message in which `InstallSnapshot` hands a snapshot to the service. -/
def snapshotMsg (args : InstallSnapshotArgs n C) : ApplyMsg C :=
  { snapshotValid := true
    snapshot := args.data
    snapshotTerm := args.lastIncludedTerm
    snapshotIndex := args.lastIncludedIndex }

/-- The server after it has accepted a snapshot. -/
def install (rf : Raft n C) (args : InstallSnapshotArgs n C) : Raft n C :=
  ({ rf with
      currentTerm := args.term
      votedFor := if args.term > rf.currentTerm then none else rf.votedFor
      state := .follower
      log := rf.installedLog args
      array := rf.installedArray args
      snapShot := args.data
      lastIncludedIndex := args.lastIncludedIndex
      lastIncludedTerm := args.lastIncludedTerm
      commitIndex := max rf.commitIndex args.lastIncludedIndex
      lastApplied := args.lastIncludedIndex
      snapSenders := rf.snapSenders ++ [snapshotMsg args] }).persist

theorem installSnapshot_of_le {args : InstallSnapshotArgs n C} (h : rf.currentTerm ≤ args.term) :
    rf.installSnapshot args = (rf.install args, ⟨args.term, false⟩) := by
  rw [installSnapshot, if_neg (Int.not_lt.2 h), install]
  split
  · rfl
  · rename_i hle
    have he : args.term = rf.currentTerm := by omega
    simp only [he]
    rfl

theorem installSnapshot_cases (rf : Raft n C) (args : InstallSnapshotArgs n C) :
    (rf.installSnapshot args).1 = rf ∨
    (rf.currentTerm ≤ args.term ∧ (rf.installSnapshot args).1 = rf.install args) := by
  by_cases hterm : args.term < rf.currentTerm
  · rw [installSnapshot, if_pos hterm]
    exact Or.inl rfl
  · have hle := Int.not_lt.1 hterm
    rw [installSnapshot_of_le hle]
    exact Or.inr ⟨hle, rfl⟩

/-- The server after it has compacted its log up to `index`, where its entry has term `t`. -/
def compact (rf : Raft n C) (index : ℕ) (t : ℤ) (data : Data) : Raft n C :=
  ({ rf with
      snapShot := data
      lastIncludedTerm := t
      log := rf.log.drop (index - rf.lastIncludedIndex)
      lastIncludedIndex := index
      lastApplied := max rf.lastApplied index }).persist

theorem snapshot_cases {index : ℕ} {data : Data} (h : rf.snapshot index data = some rf') :
    rf' = rf ∨ (rf.lastIncludedIndex < index ∧ index ≤ rf.commitIndex ∧
      ∃ e, rf.logAt index = some e ∧ rf' = rf.compact index e.term data) := by
  unfold snapshot at h
  split at h
  · cases h
    exact Or.inl rfl
  rename_i hrange
  split at h
  · cases h
    exact Or.inl rfl
  obtain ⟨e, he, h⟩ := Option.bind_eq_some_iff.1 h
  cases h
  have hr : (rf.realLogIdx index).toNat = index - rf.lastIncludedIndex := by
    rw [realLogIdx]
    omega
  refine Or.inr ⟨by omega, by omega, e, he, ?_⟩
  rw [compact, hr]

/-- The messages of `CommitChecker` have the term of their entry in `CommandTerm`. -/
theorem collect_terms {fuel i : ℕ} {msgBuf : List (ApplyMsg C)}
    (h : rf.collect fuel i = some msgBuf) : ∀ msg ∈ msgBuf, msg.snapshotTerm = 0 ∧
      ∃ e, rf.logAt msg.commandIndex = some e ∧ msg.command = e.command ∧
        msg.commandTerm = e.term := by
  induction fuel generalizing i msgBuf with
  | zero =>
    cases h
    exact fun _ hmsg => absurd hmsg List.not_mem_nil
  | succ fuel ih =>
    simp only [collect] at h
    split at h
    · exact ih h
    split at h
    · cases h
      exact fun _ hmsg => absurd hmsg List.not_mem_nil
    · obtain ⟨e, he, h⟩ := Option.bind_eq_some_iff.1 h
      obtain ⟨rest, hrest, h⟩ := Option.bind_eq_some_iff.1 h
      cases h
      intro msg hmsg
      rcases List.mem_cons.1 hmsg with rfl | hmsg
      · exact ⟨rfl, e, he, rfl, rfl⟩
      · exact ih hrest msg hmsg

theorem commitChecker_frame {msg : Option (ApplyMsg C)} (h : rf.commitChecker = some (rf', msg)) :
    ∃ ch applied, rf' = { rf with checker := ch, lastApplied := applied } := by
  unfold commitChecker at h
  split at h
  · cases h
    exact ⟨_, _, rfl⟩
  · cases h
  · obtain ⟨buf, -, h⟩ := Option.bind_eq_some_iff.1 h
    cases h
    exact ⟨_, _, rfl⟩
  · cases h
    exact ⟨_, _, rfl⟩
  · cases h
    exact ⟨_, _, rfl⟩
  · simp only at h
    split at h <;> cases h <;> exact ⟨_, _, rfl⟩

end DistSys.Raft
