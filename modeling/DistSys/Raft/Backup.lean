import DistSys.Raft.Handlers
import Mathlib.Order.Bounds.Basic

/-!
# Moving `nextIndex` back

On a rejection the leader searches its log from `nextIndex - 1` down for an entry of an earlier term
than the one there. What it finds is where the next request starts. A search that reaches the
placeholder sets `nextIndex` to `lastIncludedIndex`, below what a request can start at, so that
`doLeader` sends the snapshot instead; only a leader that has never compacted starts at index 0.

Main result: `rejection_steps_back`.
-/

namespace DistSys.Raft

variable {n : ℕ} {C : Type} [Inhabited C] {rf : Raft n C}

/-! ## The search -/

/-- The indices below `old` with an entry of an earlier term than the one at `old`. -/
def earlierTerm (rf : Raft n C) (old : ℕ) : Set ℕ :=
  {j | j < old ∧ ∃ e e', rf.logAt j = some e ∧ rf.logAt old = some e' ∧ e.term < e'.term}

theorem lastIncludedIndex_le_of_earlierTerm {old j : ℕ} (h : j ∈ rf.earlierTerm old) :
    rf.lastIncludedIndex ≤ j := by
  obtain ⟨-, e, -, he, -, -⟩ := h
  exact (logAt_eq_some.1 he).1

/-- The loop from `i` down, when the indices it has passed are not of an earlier term. -/
theorem backup_cases (hne : rf.log ≠ []) {next : ℕ} (hnext : next ≤ rf.lastLogIdx + 1) {i : ℕ}
    (hi : i ≤ next) (hpassed : ∀ j ∈ rf.earlierTerm (next - 1), j < i) :
    ∃ m, rf.backup next i = some m ∧
      (i = 0 ∧ m = next ∨ m = rf.lastIncludedIndex ∧ rf.earlierTerm (next - 1) = ∅ ∨
        ∃ j, m = j + 1 ∧ IsGreatest (rf.earlierTerm (next - 1)) j) := by
  induction i with
  | zero => exact ⟨next, rfl, Or.inl ⟨rfl, rfl⟩⟩
  | succ i ih =>
    -- a search that has passed all indices of the log has found nothing
    have hnone : (∀ j ∈ rf.earlierTerm (next - 1), j < rf.lastIncludedIndex) →
        rf.earlierTerm (next - 1) = ∅ := fun hall =>
      Set.eq_empty_of_forall_notMem fun j hj =>
        absurd (hall j hj) (Nat.not_lt.2 (lastIncludedIndex_le_of_earlierTerm hj))
    rw [backup]
    split
    · rename_i hlow
      exact ⟨_, rfl, Or.inr (Or.inl ⟨rfl, hnone fun j hj =>
        lt_of_le_of_lt (Nat.lt_succ_iff.1 (hpassed j hj)) hlow⟩)⟩
    rename_i hlow
    obtain ⟨e, he⟩ := exists_logAt hne (v := i) (by omega) (by omega)
    obtain ⟨e', he'⟩ := exists_logAt hne (v := next - 1) (by omega) (by omega)
    rw [he, he']
    simp only [Option.bind_eq_bind, Option.bind_some]
    split
    · rename_i hlt
      -- not the index that the search started from, whose entry is compared with itself
      have hold : i ≠ next - 1 := by
        rintro rfl
        cases he.symm.trans he'
        exact lt_irrefl _ hlt
      exact ⟨_, rfl, Or.inr (Or.inr ⟨i, rfl, ⟨by omega, e, e', he, he', hlt⟩,
        fun j hj => Nat.lt_succ_iff.1 (hpassed j hj)⟩)⟩
    rename_i hge
    have hpassed' : ∀ j ∈ rf.earlierTerm (next - 1), j < i := by
      intro j hj
      refine lt_of_le_of_ne (Nat.lt_succ_iff.1 (hpassed j hj)) ?_
      rintro rfl
      obtain ⟨-, a, a', ha, ha', hlt⟩ := hj
      cases he.symm.trans ha
      cases he'.symm.trans ha'
      exact hge hlt
    split
    · rename_i hbase
      exact ⟨_, rfl, Or.inr (Or.inl ⟨rfl, hnone (hbase ▸ hpassed')⟩)⟩
    rename_i hbase
    obtain ⟨m, hm, ⟨hzero, -⟩ | hend⟩ := ih (by omega) hpassed'
    · omega
    · exact ⟨m, hm, Or.inr hend⟩

/-- **The search stays in bounds** and ends at an entry of an earlier term or at the boundary. -/
theorem backup_spec (hne : rf.log ≠ []) {next : ℕ} (hnext : next ≤ rf.lastLogIdx + 1) :
    ∃ m, rf.backup next next = some m ∧
      (next = 0 ∧ m = 0 ∨ m = rf.lastIncludedIndex ∧ rf.earlierTerm (next - 1) = ∅ ∨
        ∃ j, m = j + 1 ∧ IsGreatest (rf.earlierTerm (next - 1)) j) := by
  obtain ⟨m, hm, ⟨hzero, rfl⟩ | hend⟩ := backup_cases hne hnext le_rfl
    (fun j hj => lt_of_lt_of_le hj.1 (Nat.sub_le next 1))
  · exact ⟨_, hm, Or.inl ⟨hzero, hzero⟩⟩
  · exact ⟨m, hm, Or.inr hend⟩

theorem backup_le (hne : rf.log ≠ []) {next : ℕ} (hnext : next ≤ rf.lastLogIdx + 1) :
    ∃ m ≤ rf.lastLogIdx + 1, rf.backup next next = some m := by
  have hbase : rf.lastIncludedIndex ≤ rf.lastLogIdx := Nat.le_add_left _ _
  obtain ⟨m, hm, ⟨-, rfl⟩ | ⟨rfl, -⟩ | ⟨j, rfl, hj, -⟩⟩ := backup_spec hne hnext
  · exact ⟨0, Nat.zero_le _, hm⟩
  · exact ⟨_, by omega, hm⟩
  · have hlt := hj.1
    exact ⟨_, by omega, hm⟩

/-- Above the boundary `nextIndex` moves strictly back, at most to the boundary. -/
theorem backup_lt (hne : rf.log ≠ []) {next : ℕ} (hnext : next ≤ rf.lastLogIdx + 1)
    (hbase : rf.lastIncludedIndex < next) :
    ∃ m, rf.backup next next = some m ∧ rf.lastIncludedIndex ≤ m ∧ m < next := by
  obtain ⟨m, hm, ⟨hzero, -⟩ | ⟨rfl, -⟩ | ⟨j, rfl, hj, -⟩⟩ := backup_spec hne hnext
  · omega
  · exact ⟨_, hm, le_rfl, hbase⟩
  · have hlt := hj.1
    have hle := lastIncludedIndex_le_of_earlierTerm hj
    exact ⟨_, hm, by omega, by omega⟩

/-! ## The next message -/

def withNext (leader : Raft n C) (i : Fin n) (next : ℕ) : Raft n C :=
  { leader with nextIndex := Function.update leader.nextIndex i next }

@[simp] theorem withNext_nextIndex (leader : Raft n C) (i : Fin n) (next : ℕ) :
    (leader.withNext i next).nextIndex i = next :=
  Function.update_self ..

/-- `reply` is a follower's rejection in the term of the leader. -/
structure Rejected (rf : Raft n C) (args : AppendEntriesArgs n C) (reply : AppendEntriesReply) :
    Prop where
  state : rf.state = .leader
  success : reply.success = false
  term_ne : reply.term ≠ 0
  term : reply.term = rf.currentTerm
  sent : rf.currentTerm ≤ args.term

theorem sendAppendEntries_of_rejected {server : Fin n} {args : AppendEntriesArgs n C}
    {reply : AppendEntriesReply} (h : rf.Rejected args reply) {m : ℕ}
    (hm : rf.backup (rf.nextIndex server) (rf.nextIndex server) = some m) :
    rf.sendAppendEntries server args reply = some (rf.withNext server m) := by
  rw [sendAppendEntries, if_neg fun h0 => h.term_ne h0.1, if_neg (Int.not_lt.2 h.sent),
    if_pos (by rw [h.success]; exact Bool.false_ne_true), if_neg (Int.not_lt.2 (le_of_eq h.term)),
    if_pos ⟨h.term, h.state⟩, hm]
  rfl

/-- There is a message for every `nextIndex` up to the end of the log. -/
theorem exists_doLeaderFor (hne : rf.log ≠ []) {i : Fin n}
    (hnext : rf.nextIndex i ≤ rf.lastLogIdx + 1) :
    ∃ task, rf.doLeaderFor i = some (i, task) ∧
      (task = .handleInstallSnapshot ↔ rf.nextIndex i - 1 < rf.lastIncludedIndex) := by
  have hbase : rf.lastIncludedIndex ≤ rf.lastLogIdx := Nat.le_add_left _ _
  rw [doLeaderFor]
  simp only
  split
  · rename_i hlow
    exact ⟨_, rfl, iff_of_true rfl hlow⟩
  · rename_i hlow
    obtain ⟨prev, hprev⟩ := exists_logAt hne (v := rf.nextIndex i - 1) (by omega) (by omega)
    rw [hprev]
    simp only [Option.bind_eq_bind, Option.bind_some]
    exact ⟨_, rfl, iff_of_false (by simp) hlow⟩

/-- What may follow a rejected request that started after index `old`: a snapshot, a request from
the start of a log that was never compacted, or one from the last entry of an earlier term than
`old`. -/
def StepsBack (rf : Raft n C) (old : ℕ) : Task n C → Prop
  | .handleInstallSnapshot => True
  | .sendAppendEntries args =>
    rf.lastIncludedIndex = 0 ∧ args.prevLogIndex = 0 ∨
      args.prevLogIndex < old ∧ IsGreatest (rf.earlierTerm old) args.prevLogIndex

/-- **A rejection makes progress**, wherever `nextIndex` is in the log or below it. -/
theorem rejection_steps_back (rf : Raft n C) (hne : rf.log ≠ []) (server : Fin n)
    (hnext : rf.nextIndex server ≤ rf.lastLogIdx + 1) :
    ∃ m, rf.backup (rf.nextIndex server) (rf.nextIndex server) = some m ∧
      (∀ args reply, rf.Rejected args reply →
        rf.sendAppendEntries server args reply = some (rf.withNext server m)) ∧
      ∃ task, (rf.withNext server m).doLeaderFor server = some (server, task) ∧
        rf.StepsBack (rf.nextIndex server - 1) task := by
  obtain ⟨m, hm, hend⟩ := backup_spec hne hnext
  obtain ⟨m', hm', hle⟩ := backup_le hne hnext
  cases hle.symm.trans hm
  refine ⟨m, hm, fun args reply hr => sendAppendEntries_of_rejected hr hm, ?_⟩
  have hnext' : (rf.withNext server m).nextIndex server ≤ (rf.withNext server m).lastLogIdx + 1 := by
    rw [withNext_nextIndex]
    exact hm'
  have hne' : (rf.withNext server m).log ≠ [] := hne
  obtain ⟨task, htask, hsnapshot⟩ := exists_doLeaderFor hne' hnext'
  rw [withNext_nextIndex] at hsnapshot
  refine ⟨task, htask, ?_⟩
  obtain ⟨-, rfl | ⟨prev, -, rfl⟩⟩ := doLeaderFor_eq_some htask
  · trivial
  have hbase : rf.lastIncludedIndex ≤ m - 1 := by
    refine Nat.not_lt.1 fun hlow => ?_
    cases hsnapshot.2 hlow
  simp only [StepsBack, withNext_nextIndex]
  rcases hend with ⟨-, rfl⟩ | ⟨rfl, -⟩ | ⟨j, rfl, hj⟩
  · exact Or.inl ⟨by omega, rfl⟩
  · exact Or.inl ⟨by omega, by omega⟩
  · exact Or.inr ⟨hj.1.1, hj⟩

/-- A leader of term 3 with entries of the terms 1, 1, 2, 2, after a rejection at index 4. -/
def steppingBack : Raft 2 ℕ :=
  { make 0 {} with
    state := .leader
    currentTerm := 3
    log := [⟨-1, 0⟩, ⟨1, 10⟩, ⟨1, 11⟩, ⟨2, 12⟩, ⟨2, 13⟩]
    nextIndex := fun _ => 5 }

theorem rejection_steps_back_steppingBack :
    steppingBack.log ≠ [] ∧ steppingBack.nextIndex 1 ≤ steppingBack.lastLogIdx + 1 ∧
    steppingBack.backup 5 5 = some 3 ∧
    ∃ m, steppingBack.backup 5 5 = some m ∧
      (∀ args reply, steppingBack.Rejected args reply →
        steppingBack.sendAppendEntries 1 args reply = some (steppingBack.withNext 1 m)) ∧
      ∃ task, (steppingBack.withNext 1 m).doLeaderFor 1 = some (1, task) ∧
        steppingBack.StepsBack 4 task :=
  ⟨by decide, by decide, by decide, rejection_steps_back steppingBack (by decide) 1 (by decide)⟩

end DistSys.Raft
