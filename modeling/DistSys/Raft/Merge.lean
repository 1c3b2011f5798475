import DistSys.Raft.Handlers

/-!
# Merging the entries of an `AppendEntries` request

`AppendEntries` compares the terms of the new entries with those of the log from `PrevLogIndex + 1`
on and cuts the log only at the first entry that differs. So a request whose entries the log already
has leaves it alone (`HasEntries.log_eq`), however late and in whatever order requests arrive.

Main result: `appendEntries_merges`.
-/

namespace DistSys.Raft

variable {n : ℕ} {C : Type} [Inhabited C] {rf rf' : Raft n C} {args : AppendEntriesArgs n C}

/-- The request passes the tests of `AppendEntries` on its term and on the previous entry. -/
def Passes (rf : Raft n C) (args : AppendEntriesArgs n C) : Prop :=
  rf.currentTerm ≤ args.term ∧
    ∃ prev, rf.logAt args.prevLogIndex = some prev ∧ prev.term = args.prevLogTerm

/-- The log has the term of the `i`-th entry of the request at its index. -/
def HasEntry (rf : Raft n C) (args : AppendEntriesArgs n C) (i : ℕ) : Prop :=
  ∀ e, args.entries[i]? = some e →
    ∃ e', rf.logAt (args.prevLogIndex + 1 + i) = some e' ∧ e'.term = e.term

/-- The log has the terms of all entries of the request. -/
def HasEntries (rf : Raft n C) (args : AppendEntriesArgs n C) : Prop := ∀ i, rf.HasEntry args i

/-- The `j`-th entry of the request is the first that the log does not have: it has another one
there, or ends before. -/
structure FirstMissing (rf : Raft n C) (args : AppendEntriesArgs n C) (j : ℕ) : Prop where
  lt : j < args.entries.length
  before : ∀ i < j, rf.HasEntry args i
  not_has : ¬ rf.HasEntry args j

/-- The entries of `old` are among those of `new`, and it is not newer. -/
structure Covers (new old : AppendEntriesArgs n C) : Prop where
  term : old.term ≤ new.term
  entries : ∀ i e, old.entries[i]? = some e → ∃ k e', new.entries[k]? = some e' ∧
    new.prevLogIndex + k = old.prevLogIndex + i ∧ e'.term = e.term
  commit : old.leaderCommit ≤ new.leaderCommit

omit [Inhabited C] in
theorem Covers.refl (args : AppendEntriesArgs n C) : Covers args args :=
  ⟨le_rfl, fun i e he => ⟨i, e, he, rfl, rfl⟩, le_rfl⟩

theorem HasEntries.of_covers {old : AppendEntriesArgs n C} (h : rf.HasEntries args)
    (hcov : Covers args old) : rf.HasEntries old := by
  intro i e he
  obtain ⟨k, f, hf, hidx, hterm⟩ := hcov.entries i e he
  obtain ⟨e', he', hterm'⟩ := h k f hf
  have hsame : old.prevLogIndex + 1 + i = args.prevLogIndex + 1 + k := by omega
  exact ⟨e', by rw [hsame, he'], hterm'.trans hterm⟩

/-! ## The merged log -/

theorem insertAt_le (h : rf.Passes args) : rf.insertAt args ≤ rf.log.length := by
  obtain ⟨-, prev, hprev, -⟩ := h
  exact (List.getElem?_eq_some_iff.1 (logAt_eq_some.1 hprev).2).1

theorem lastIncludedIndex_le (h : rf.Passes args) : rf.lastIncludedIndex ≤ args.prevLogIndex := by
  obtain ⟨-, prev, hprev, -⟩ := h
  exact (logAt_eq_some.1 hprev).1

/-- Where the `i`-th entry of a request belongs. -/
theorem logAt_entry (h : rf.lastIncludedIndex ≤ args.prevLogIndex) (i : ℕ) :
    rf.logAt (args.prevLogIndex + 1 + i) = rf.log[rf.insertAt args + i]? := by
  rw [logAt_of_le (by omega), insertAt]
  congr 1
  omega

theorem agreeUpTo_iff (h : rf.lastIncludedIndex ≤ args.prevLogIndex) {j : ℕ} :
    AgreeUpTo rf.log (rf.insertAt args) args.entries j ↔ ∀ i < j, rf.HasEntry args i := by
  constructor
  · intro hag i hi e he
    rw [logAt_entry h]
    exact hag i e hi he
  · intro hhas i e hi he
    rw [← logAt_entry h]
    exact hhas i hi e he

/-- The log is kept if it has the entries, and else cut at the first that it does not have. -/
theorem mergedLog_cases (h : rf.Passes args) :
    rf.HasEntries args ∧ rf.mergedLog args = rf.log ∨
    ∃ j, rf.FirstMissing args j ∧ rf.insertAt args + j ≤ rf.log.length ∧
      rf.mergedLog args = rf.log.take (rf.insertAt args + j) ++ args.entries.drop j := by
  have hbase := lastIncludedIndex_le h
  rcases mergeEntries_cases (insertAt_le h) args.entries with ⟨heq, hag⟩ |
    ⟨j, hj, hlen, hag, hne, heq⟩
  · refine .inl ⟨fun i e he => ?_, heq⟩
    exact (agreeUpTo_iff hbase).1 hag i (List.getElem?_eq_some_iff.1 he).1 e he
  · refine .inr ⟨j, ⟨hj, (agreeUpTo_iff hbase).1 hag, fun hhas => ?_⟩, hlen, heq⟩
    obtain ⟨e', he', hterm⟩ := hhas _ (List.getElem?_eq_getElem hj)
    rw [logAt_entry hbase] at he'
    exact hne _ e' (List.getElem?_eq_getElem hj) he' hterm

theorem HasEntries.mergedLog_eq (hhas : rf.HasEntries args) (h : rf.Passes args) :
    rf.mergedLog args = rf.log := by
  rcases mergedLog_cases h with ⟨-, heq⟩ | ⟨j, hj, -, -⟩
  · exact heq
  · exact absurd (hhas j) hj.not_has

/-- The new entries are in the merged log. -/
theorem getElem?_mergedLog (h : rf.Passes args) {i : ℕ} {e : LogEntry C}
    (he : args.entries[i]? = some e) :
    ∃ e', (rf.mergedLog args)[rf.insertAt args + i]? = some e' ∧ e'.term = e.term := by
  have hbase := lastIncludedIndex_le h
  rcases mergedLog_cases h with ⟨hhas, heq⟩ | ⟨j, hj, hlen, heq⟩
  · rw [heq, ← logAt_entry hbase]
    exact hhas i e he
  · rw [heq, List.getElem?_append, List.length_take, Nat.min_eq_left hlen]
    split
    · rename_i hlt
      rw [List.getElem?_take_of_lt hlt, ← logAt_entry hbase]
      exact hj.before i (by omega) e he
    · rename_i hge
      refine ⟨e, ?_, rfl⟩
      rw [List.getElem?_drop, show j + (rf.insertAt args + i - (rf.insertAt args + j)) = i by omega]
      exact he

/-! ## The handler -/

/-- The server after a request has passed. -/
def accepted (rf : Raft n C) (args : AppendEntriesArgs n C) : Raft n C :=
  ((rf.adoptTerm args.term).persist).acceptEntries args

/-- The two outcomes of `AppendEntries`; a request that does not pass changes at most the term. -/
theorem appendEntries_eq (rf : Raft n C) (args : AppendEntriesArgs n C) :
    rf.Passes args ∧
      rf.appendEntries args = some (rf.accepted args, ⟨rf.currentTerm, true⟩) ∨
    ¬ rf.Passes args ∧ ∃ rf', rf.appendEntries args = some (rf', ⟨rf.currentTerm, false⟩) ∧
      (args.term < rf.currentTerm ∧ rf' = rf ∨ rf' = (rf.adoptTerm args.term).persist) := by
  have hlog : (rf.adoptTerm args.term).persist.log = rf.log := by
    unfold adoptTerm
    split <;> rfl
  have hbase : (rf.adoptTerm args.term).persist.lastIncludedIndex = rf.lastIncludedIndex := by
    unfold adoptTerm
    split <;> rfl
  unfold appendEntries
  simp only [logAt, realLogIdx, virtualLogIdx, hlog, hbase]
  split
  · rename_i hterm
    exact .inr ⟨fun h => absurd h.1 (Int.not_le.2 hterm), _, rfl, .inl ⟨hterm, rfl⟩⟩
  rename_i hterm
  split
  · rename_i hlow
    exact .inr ⟨fun h => absurd (lastIncludedIndex_le h) (Nat.not_le.2 hlow), _, rfl, .inr rfl⟩
  split
  · rename_i hlow hhigh
    refine .inr ⟨fun h => ?_, _, rfl, .inr rfl⟩
    have hle := insertAt_le h
    rw [insertAt] at hle
    omega
  · rename_i hlow hhigh
    have hlt : args.prevLogIndex - rf.lastIncludedIndex < rf.log.length := by omega
    have hprev := (logAt_of_le (Nat.not_lt.1 hlow)).trans (List.getElem?_eq_getElem hlt)
    rw [show goIndex rf.log (args.prevLogIndex - rf.lastIncludedIndex) = _ from hprev]
    simp only [Option.bind_eq_bind, Option.bind_some]
    split
    · rename_i hne
      refine .inr ⟨fun h => ?_, _, rfl, .inr rfl⟩
      obtain ⟨-, prev, hprev', heq⟩ := h
      rw [hprev, Option.some.injEq] at hprev'
      exact hne (hprev' ▸ heq)
    · rename_i heq
      exact .inl ⟨⟨Int.not_lt.1 hterm, _, hprev, not_not.1 heq⟩, rfl⟩

theorem appendEntries_of_passes (h : rf.Passes args) :
    rf.appendEntries args = some (rf.accepted args, ⟨rf.currentTerm, true⟩) := by
  rcases appendEntries_eq rf args with ⟨-, heq⟩ | ⟨hnot, -⟩
  · exact heq
  · exact absurd h hnot

theorem adoptTerm_of_le {t : ℤ} (h : t ≤ rf.currentTerm) : rf.adoptTerm t = rf :=
  if_neg (Int.not_lt.2 h)

theorem accepted_eq (rf : Raft n C) (args : AppendEntriesArgs n C) : ∃ ch, rf.accepted args =
    { ({ rf.adoptTerm args.term with log := rf.mergedLog args }).persist with
      commitIndex := rf.followedCommit args
      checker := ch } := by
  obtain ⟨ch, hch, -⟩ := acceptEntries_eq (rf.adoptTerm args.term) args
  refine ⟨ch, hch.trans ?_⟩
  have hlog : (rf.adoptTerm args.term).mergedLog args = rf.mergedLog args := by
    unfold adoptTerm
    split <;> rfl
  have hcommit : (rf.adoptTerm args.term).followedCommit args = rf.followedCommit args := by
    unfold adoptTerm
    split <;> rfl
  rw [hlog, hcommit]

@[simp] theorem accepted_log (rf : Raft n C) (args : AppendEntriesArgs n C) :
    (rf.accepted args).log = rf.mergedLog args := by
  obtain ⟨ch, heq⟩ := accepted_eq rf args
  rw [heq]
  rfl

@[simp] theorem accepted_commitIndex (rf : Raft n C) (args : AppendEntriesArgs n C) :
    (rf.accepted args).commitIndex = rf.followedCommit args := by
  obtain ⟨ch, heq⟩ := accepted_eq rf args
  rw [heq]

@[simp] theorem accepted_lastIncludedIndex (rf : Raft n C) (args : AppendEntriesArgs n C) :
    (rf.accepted args).lastIncludedIndex = rf.lastIncludedIndex := by
  obtain ⟨ch, heq⟩ := accepted_eq rf args
  rw [heq, adoptTerm]
  split <;> rfl

theorem accepted_currentTerm (h : rf.Passes args) :
    (rf.accepted args).currentTerm = args.term := by
  obtain ⟨ch, heq⟩ := accepted_eq rf args
  have hterm := h.1
  rw [heq, adoptTerm]
  split
  · rfl
  · exact Int.le_antisymm hterm (Int.not_lt.1 ‹_›)

/-- The state has been saved. -/
theorem persist_accepted (rf : Raft n C) (args : AppendEntriesArgs n C) :
    (rf.accepted args).persist = rf.accepted args := by
  obtain ⟨ch, heq⟩ := accepted_eq rf args
  rw [heq]
  rfl

theorem hasEntries_accepted (h : rf.Passes args) : (rf.accepted args).HasEntries args := by
  intro i e he
  rw [logAt_entry (by rw [accepted_lastIncludedIndex]; exact lastIncludedIndex_le h), insertAt,
    accepted_log, accepted_lastIncludedIndex]
  exact getElem?_mergedLog h he

/-- The log is unchanged at and below `PrevLogIndex`. -/
theorem logAt_accepted (h : rf.Passes args) {v : ℕ} (hv : v ≤ args.prevLogIndex) :
    (rf.accepted args).logAt v = rf.logAt v := by
  obtain ⟨-, prev, hprev, -⟩ := id h
  have htake := take_mergedLog hprev
  rcases Nat.lt_or_ge v rf.lastIncludedIndex with hlow | hge
  · rw [logAt_of_lt hlow, logAt_of_lt (by rwa [accepted_lastIncludedIndex])]
  · have hlt : v - rf.lastIncludedIndex < rf.insertAt args := by
      rw [insertAt]
      omega
    rw [logAt_of_le hge, logAt_of_le (by rwa [accepted_lastIncludedIndex]),
      accepted_lastIncludedIndex, accepted_log, ← List.getElem?_take_of_lt hlt, htake,
      List.getElem?_take_of_lt hlt]

/-- A request whose entries the log has leaves it alone, whether it passes or not. -/
theorem HasEntries.log_eq (hhas : rf.HasEntries args) {reply : AppendEntriesReply}
    (hr : rf.appendEntries args = some (rf', reply)) : rf'.log = rf.log := by
  rcases appendEntries_eq rf args with ⟨hpass, heq⟩ | ⟨-, rf'', heq, hrf⟩
  · cases hr.symm.trans heq
    rw [accepted_log, hhas.mergedLog_eq hpass]
  · cases hr.symm.trans heq
    rcases hrf with ⟨-, rfl⟩ | rfl
    · rfl
    · unfold adoptTerm
      split <;> rfl

/-- An old `leaderCommit` does not move `commitIndex`. -/
theorem followedCommit_covered {old : AppendEntriesArgs n C} (hcov : Covers args old)
    (hlog : (rf.accepted args).mergedLog old = rf.mergedLog args) :
    (rf.accepted args).followedCommit old = (rf.accepted args).commitIndex := by
  have hcommit := hcov.commit
  rw [followedCommit, hlog, virtualLogIdx, accepted_lastIncludedIndex, accepted_commitIndex,
    followedCommit, virtualLogIdx]
  split_ifs <;> omega

/-- A request that is covered by one that has been accepted only wakes up `CommitChecker`. -/
theorem accepted_covered (h : rf.Passes args) {old : AppendEntriesArgs n C}
    (hcov : Covers args old) (hpass : (rf.accepted args).Passes old) :
    ∃ ch, (rf.accepted args).accepted old = { rf.accepted args with checker := ch } := by
  have hterm : old.term ≤ (rf.accepted args).currentTerm := by
    rw [accepted_currentTerm h]
    exact hcov.term
  have hlog := ((hasEntries_accepted h).of_covers hcov).mergedLog_eq hpass
  rw [accepted_log] at hlog
  have hsame : { rf.accepted args with log := rf.mergedLog args } = rf.accepted args := by
    rw [← accepted_log]
  obtain ⟨ch, hch⟩ := accepted_eq (rf.accepted args) old
  refine ⟨ch, ?_⟩
  rw [hch, adoptTerm_of_le hterm, followedCommit_covered hcov hlog, hlog, hsame, persist_accepted]

theorem appendEntries_covered (h : rf.Passes args) {old : AppendEntriesArgs n C}
    (hcov : Covers args old) : ∃ ch success, (rf.accepted args).appendEntries old =
      some ({ rf.accepted args with checker := ch }, ⟨args.term, success⟩) := by
  rw [← accepted_currentTerm h]
  rcases appendEntries_eq (rf.accepted args) old with ⟨hpass, heq⟩ | ⟨-, rf', heq, hrf⟩
  · obtain ⟨ch, hch⟩ := accepted_covered h hcov hpass
    exact ⟨ch, true, by rw [heq, hch]⟩
  · refine ⟨(rf.accepted args).checker, false, heq.trans ?_⟩
    rcases hrf with ⟨-, rfl⟩ | rfl
    · rfl
    · rw [adoptTerm_of_le (by rw [accepted_currentTerm h]; exact hcov.term), persist_accepted]

/-- The request passes again: the previous entry is still there. -/
theorem passes_accepted (h : rf.Passes args) : (rf.accepted args).Passes args := by
  refine ⟨(accepted_currentTerm h).le, ?_⟩
  rw [logAt_accepted h le_rfl]
  exact h.2

/-- **`AppendEntries` merges.** A request that passes the tests is accepted. The log then has the
terms of its entries and is as before up to `PrevLogIndex`. It does not change if it had these terms
before; otherwise it is cut at the first entry that differs or is missing, and the new entries from
there on follow. Handling the request again, or an older one that it covers, changes nothing
(`CommitChecker` may be woken up), nor does the older one change any later log that still has the
entries. -/
theorem appendEntries_merges (rf : Raft n C) (args : AppendEntriesArgs n C) (h : rf.Passes args) :
    ∃ rf', rf.appendEntries args = some (rf', ⟨rf.currentTerm, true⟩) ∧
      rf'.lastIncludedIndex = rf.lastIncludedIndex ∧
      rf'.HasEntries args ∧
      (∀ v ≤ args.prevLogIndex, rf'.logAt v = rf.logAt v) ∧
      (rf.HasEntries args → rf'.log = rf.log) ∧
      (¬ rf.HasEntries args → ∃ j, rf.FirstMissing args j ∧
        rf'.log = rf.log.take (args.prevLogIndex + 1 + j - rf.lastIncludedIndex) ++
          args.entries.drop j) ∧
      (∃ ch, rf'.appendEntries args = some ({ rf' with checker := ch }, ⟨args.term, true⟩)) ∧
      ∀ old, Covers args old →
        (∃ ch success,
          rf'.appendEntries old = some ({ rf' with checker := ch }, ⟨args.term, success⟩)) ∧
        ∀ (later later' : Raft n C) reply, later.HasEntries args →
          later.appendEntries old = some (later', reply) → later'.log = later.log := by
  have hpass := appendEntries_of_passes h
  refine ⟨rf.accepted args, hpass, accepted_lastIncludedIndex rf args, hasEntries_accepted h,
    fun v hv => logAt_accepted h hv, fun hhas => hhas.log_eq hpass, fun hnot => ?_, ?_,
    fun old hcov => ⟨appendEntries_covered h hcov, fun later later' reply hhas hr =>
      (hhas.of_covers hcov).log_eq hr⟩⟩
  · rcases mergedLog_cases h with ⟨hhas, -⟩ | ⟨j, hj, -, heq⟩
    · exact absurd hhas hnot
    · have hbase := lastIncludedIndex_le h
      refine ⟨j, hj, ?_⟩
      rw [accepted_log, heq, insertAt]
      congr 2
      omega
  · obtain ⟨ch, hch⟩ := accepted_covered h (Covers.refl args) (passes_accepted h)
    have hreply : (⟨(rf.accepted args).currentTerm, true⟩ : AppendEntriesReply) =
        ⟨args.term, true⟩ := by
      rw [accepted_currentTerm h]
    exact ⟨ch, by rw [appendEntries_of_passes (passes_accepted h), hch, hreply]⟩

/-- A follower whose second entry conflicts with what its new leader has. -/
def staleFollower : Raft 3 ℕ :=
  { Raft.make 0 {} with currentTerm := 2, log := [⟨-1, 0⟩, ⟨2, 5⟩, ⟨2, 6⟩, ⟨2, 7⟩] }

def correction : AppendEntriesArgs 3 ℕ := ⟨4, 1, 1, 2, [⟨4, 8⟩], 1⟩

theorem appendEntries_merges_correction :
    staleFollower.Passes correction ∧ ¬ staleFollower.HasEntries correction ∧
      ∃ rf', staleFollower.appendEntries correction = some (rf', ⟨2, true⟩) ∧
        rf'.log = [⟨-1, 0⟩, ⟨2, 5⟩, ⟨4, 8⟩] := by
  have hpass : staleFollower.Passes correction := ⟨by decide, ⟨2, 5⟩, by decide, by decide⟩
  have hnot : ¬ staleFollower.HasEntry correction 0 := by
    intro h
    obtain ⟨e, he, hterm⟩ := h ⟨4, 8⟩ rfl
    cases (show staleFollower.logAt 2 = some ⟨2, 6⟩ by decide).symm.trans he
    revert hterm
    decide
  obtain ⟨rf', hr, -, -, -, -, hcut, -⟩ := appendEntries_merges staleFollower correction hpass
  refine ⟨hpass, fun h => hnot (h 0), rf', hr, ?_⟩
  obtain ⟨j, hj, hlog⟩ := hcut fun h => hnot (h 0)
  obtain rfl : j = 0 := Nat.lt_one_iff.1 hj.lt
  exact hlog

end DistSys.Raft
