import DistSys.Raft.Backup
import DistSys.Raft.Safety

/-!
# No index out of range

Positions in `rf.log` are computed from global indices, which `Snapshot` and `InstallSnapshot`
rebase. `Cluster.Panics` collects every place where Go would stop: reads and slices of `rf.log`, and
the capacity of the buffer of `CommitChecker`.

Most places are guarded. The others rest on what the refinement says of a server, that
`lastIncludedIndex ≤ commitIndex` and that its log reaches `commitIndex`, and on `Raft.Bounded`:
`lastApplied` is not above `commitIndex`, and a leader's `nextIndex` is not beyond its log.

`no_panic` is the result for runs that overwrite no request, as the refinement needs it, and accept
no stale snapshots. A stale snapshot takes entries below `commitIndex` away, and `Snapshot`, whose
last test lets a position one beyond the log pass, then reads there (`no_panic_fails`).
-/

namespace DistSys

open Raft

variable {n : ℕ} {C : Type} [Inhabited C]

/-! ## Where Go would stop -/

/-- `rf.log[i:]` and `rf.log[:i]` do not stop. -/
def Raft.SliceInRange (rf : Raft n C) (i : ℤ) : Prop := 0 ≤ i ∧ i ≤ rf.log.length

/-- The goroutine that takes step `a` stops in the function after which the case is named: it reads
a position that is not there (the function gives `none`), or takes a slice out of range. Arguments
of `DPrintf` only repeat reads made before them. -/
inductive Cluster.Panics (c : Cluster n C) : Action n C → Prop
  | doLeader (a : Action n C) (s : Fin n) (ha : a = .msgComing s ∨ a = .timeout s)
      (hl : (c.servers s).state = .leader) (h : (c.servers s).doLeader = none) : c.Panics a
  | doLeaderSlice (a : Action n C) (s i : Fin n) (ha : a = .msgComing s ∨ a = .timeout s)
      (hl : (c.servers s).state = .leader)
      (hbase : (c.servers s).lastIncludedIndex ≤ (c.servers s).nextIndex i - 1)
      (hlast : (c.servers s).lastLogIdx > (c.servers s).nextIndex i - 1)
      (h : ¬ (c.servers s).SliceInRange
        ((c.servers s).realLogIdx ((c.servers s).nextIndex i - 1 + 1))) : c.Panics a
  | ticker (s : Fin n) (hs : (c.servers s).state = .candidate)
      (h : (c.servers s).beginElection = none) : c.Panics (.timeout s)
  | handleInstallSnapshot (k : ℕ) (t : Spawned n C) (hk : c.tasks[k]? = some t)
      (hl : (c.servers t.caller).state = .leader) (ht : t.task = .handleInstallSnapshot)
      (h : (c.servers t.caller).installSnapshotArgs = none) : c.Panics (.task k)
  | requestVote (k : ℕ) (call : Call n C) (args : RequestVoteArgs n) (hk : c.calls[k]? = some call)
      (hrpc : call.rpc = .requestVote args none)
      (h : (c.servers call.server).requestVote args = none) : c.Panics (.deliver k)
  | appendEntries (k : ℕ) (call : Call n C) (args : AppendEntriesArgs n C)
      (hk : c.calls[k]? = some call) (hrpc : call.rpc = .appendEntries args none)
      (h : (c.servers call.server).appendEntries args = none) : c.Panics (.deliver k)
  | appendEntriesSlice (k : ℕ) (call : Call n C) (args : AppendEntriesArgs n C) (idx : ℕ)
      (hk : c.calls[k]? = some call) (hrpc : call.rpc = .appendEntries args none)
      (hprev : (c.servers call.server).lastIncludedIndex ≤ args.prevLogIndex)
      (hlt : (c.servers call.server).realLogIdx args.prevLogIndex + 1 + idx <
        (c.servers call.server).log.length)
      (h : ¬ (c.servers call.server).SliceInRange
        ((c.servers call.server).realLogIdx args.prevLogIndex + 1 + idx)) : c.Panics (.deliver k)
  | installSnapshotSlice (k : ℕ) (call : Call n C) (args : InstallSnapshotArgs n C) (rIdx : ℕ)
      (hk : c.calls[k]? = some call) (hrpc : call.rpc = .installSnapshot args none)
      (hfound : findEntry (c.servers call.server).lastIncludedIndex args.lastIncludedIndex
        args.lastIncludedTerm 0 (c.servers call.server).log = some rIdx)
      (h : ¬ (c.servers call.server).SliceInRange rIdx) : c.Panics (.deliver k)
  | sendAppendEntries (k : ℕ) (call : Call n C) (args : AppendEntriesArgs n C)
      (reply : AppendEntriesReply) (hk : c.calls[k]? = some call) (hw : call.waiting = true)
      (he : call.epoch = c.epoch call.caller) (hrpc : call.rpc = .appendEntries args (some reply))
      (h : (c.servers call.caller).sendAppendEntries call.server args reply = none) :
    c.Panics (.receive k)
  | commitChecker (s : Fin n) (hs : (c.servers s).checker = .woken)
      (h : (c.servers s).fillBuffer = none) : c.Panics (.commitChecker s)
  | snapshot (s : Fin n) (index : ℕ) (data : Data) (h : (c.servers s).snapshot index data = none) :
    c.Panics (.snapshot s index data)
  | snapshotSlice (s : Fin n) (index : ℕ) (data : Data)
      (hbase : (c.servers s).lastIncludedIndex < index) (hle : index ≤ (c.servers s).commitIndex)
      (h : ¬ (c.servers s).SliceInRange ((c.servers s).realLogIdx index)) :
    c.Panics (.snapshot s index data)

namespace Raft

variable {rf rf' : Raft n C}

/-! ## Handlers that do not stop -/

theorem mapM_ne_none {α β : Type} {f : α → Option β} {l : List α} (h : ∀ a ∈ l, f a ≠ none) :
    l.mapM f ≠ none := by
  induction l with
  | nil => exact Option.some_ne_none _
  | cons a l ih =>
    obtain ⟨b, hb⟩ := Option.ne_none_iff_exists'.1 (h a List.mem_cons_self)
    obtain ⟨bs, hbs⟩ :=
      Option.ne_none_iff_exists'.1 (ih fun a' ha' => h a' (List.mem_cons_of_mem a ha'))
    rw [List.mapM_cons, hb, hbs]
    exact Option.some_ne_none _

theorem doLeader_ne_none (hne : rf.log ≠ []) (hnext : ∀ i, rf.nextIndex i ≤ rf.lastLogIdx + 1) :
    rf.doLeader ≠ none := by
  refine mapM_ne_none fun i _ => ?_
  obtain ⟨task, htask, -⟩ := exists_doLeaderFor hne (hnext i)
  rw [htask]
  exact Option.some_ne_none _

theorem beginElection_ne_none (hne : rf.log ≠ []) : rf.beginElection ≠ none := by
  simp only [beginElection, persist, List.getLast?_eq_some_getLast hne]
  exact Option.some_ne_none _

theorem installSnapshotArgs_ne_none (hne : rf.log ≠ []) : rf.installSnapshotArgs ≠ none := by
  unfold installSnapshotArgs
  rw [List.head?_eq_some_head hne]
  exact Option.some_ne_none _

theorem requestVote_ne_none (hne : rf.log ≠ []) (args : RequestVoteArgs n) :
    rf.requestVote args ≠ none := by
  unfold requestVote
  simp only
  split
  · exact Option.some_ne_none _
  generalize hrf : (if args.term > rf.currentTerm then _ else rf) = rf₁
  have hlog : rf₁.log = rf.log := by
    rw [← hrf]
    split <;> rfl
  split
  · rw [hlog, List.getLast?_eq_some_getLast hne]
    simp only [Option.bind_eq_bind, Option.bind_some]
    split <;> exact Option.some_ne_none _
  · exact Option.some_ne_none _

/-- The tests of `AppendEntries` are enough. -/
theorem appendEntries_ne_none (hne : rf.log ≠ []) (args : AppendEntriesArgs n C) :
    rf.appendEntries args ≠ none := by
  have hlog : (rf.adoptTerm args.term).persist.log ≠ [] := by
    show (rf.adoptTerm args.term).log ≠ []
    rwa [(sameLog_adoptTerm rf args.term).log]
  unfold appendEntries
  simp only
  split
  · exact Option.some_ne_none _
  split
  · exact Option.some_ne_none _
  split
  · exact Option.some_ne_none _
  · rename_i hbase hlast
    rw [virtualLogIdx] at hlast
    obtain ⟨prev, hprev⟩ := exists_logAt hlog (Nat.not_lt.1 hbase)
      (by rw [lastLogIdx, virtualLogIdx]; omega)
    rw [hprev]
    simp only [Option.bind_eq_bind, Option.bind_some]
    split <;> exact Option.some_ne_none _

theorem countPeers_ne_none {N : ℕ} {e : LogEntry C} (he : rf.logAt N = some e) (is : List (Fin n))
    (count : ℕ) : rf.countPeers N is count ≠ none := by
  induction is generalizing count with
  | nil => exact Option.some_ne_none _
  | cons i is ih =>
    rw [countPeers]
    split
    · rw [he]
      exact ih _
    · exact ih _

/-- The loop over `N` stays above `commitIndex`, so that it meets no compacted entry. -/
theorem advanceCommit_ne_none (hne : rf.log ≠ []) (hbase : rf.lastIncludedIndex ≤ rf.commitIndex)
    {N : ℕ} (hN : N ≤ rf.lastLogIdx) : rf.advanceCommit N ≠ none := by
  induction N with
  | zero => exact Option.some_ne_none _
  | succ N ih =>
    rw [advanceCommit]
    split
    · obtain ⟨e, he⟩ := exists_logAt hne (v := N + 1) (by omega) hN
      obtain ⟨count, hcount⟩ :=
        Option.ne_none_iff_exists'.1 (countPeers_ne_none he rf.otherPeers 1)
      rw [hcount]
      simp only [Option.bind_eq_bind, Option.bind_some]
      split
      · exact Option.some_ne_none _
      · exact ih (by omega)
    · exact Option.some_ne_none _

theorem sendAppendEntries_ne_none (hne : rf.log ≠ [])
    (hbase : rf.lastIncludedIndex ≤ rf.commitIndex)
    (hnext : rf.state = .leader → ∀ i, rf.nextIndex i ≤ rf.lastLogIdx + 1) (server : Fin n)
    (args : AppendEntriesArgs n C) (reply : AppendEntriesReply) :
    rf.sendAppendEntries server args reply ≠ none := by
  unfold sendAppendEntries
  split
  · exact Option.some_ne_none _
  split
  · exact Option.some_ne_none _
  split
  · split
    · exact Option.some_ne_none _
    split
    · rename_i hl
      obtain ⟨m, -, hm⟩ := backup_le hne (hnext hl.2 server)
      rw [hm]
      exact Option.some_ne_none _
    · exact Option.some_ne_none _
  · refine advanceCommit_ne_none ?_ ?_ le_rfl
    · exact hne
    · exact hbase

/-- The tests of `CommitChecker` are enough for its reads. -/
theorem collect_ne_none (hne : rf.log ≠ []) (fuel i : ℕ) : rf.collect fuel i ≠ none := by
  induction fuel generalizing i with
  | zero => exact Option.some_ne_none _
  | succ fuel ih =>
    rw [collect]
    split
    · exact ih _
    split
    · exact Option.some_ne_none _
    · rename_i hbase hlast
      rw [realLogIdx] at hlast
      obtain ⟨e, he⟩ := exists_logAt hne (v := i + 1) (by omega)
        (by rw [lastLogIdx, virtualLogIdx]; omega)
      obtain ⟨msgBuf, hbuf⟩ := Option.ne_none_iff_exists'.1 (ih (i + 1))
      rw [he, hbuf]
      exact Option.some_ne_none _

theorem fillBuffer_ne_none (hne : rf.log ≠ []) (happlied : rf.lastApplied ≤ rf.commitIndex) :
    rf.fillBuffer ≠ none := by
  rw [fillBuffer, if_neg (Nat.not_lt.2 happlied)]
  exact collect_ne_none hne _ _

theorem snapshot_ne_none (hne : rf.log ≠ []) (hcommit : rf.commitIndex ≤ rf.lastLogIdx) (index : ℕ)
    (data : Data) : rf.snapshot index data ≠ none := by
  unfold snapshot
  split
  · exact Option.some_ne_none _
  split
  · exact Option.some_ne_none _
  · rename_i hrange _
    obtain ⟨e, he⟩ := exists_logAt hne (v := index) (by omega) (by omega)
    rw [he]
    exact Option.some_ne_none _

/-! ## `lastApplied` and `nextIndex` -/

/-- What has been applied, or will be from the buffer, is committed, and a leader sends nothing from
beyond its log. -/
structure Bounded (rf : Raft n C) : Prop where
  applied_le : rf.lastApplied ≤ rf.commitIndex
  buffered_le : ∀ msg ∈ rf.checker.buffered, msg.commandIndex ≤ rf.commitIndex
  next_le : rf.state = .leader → ∀ i, rf.nextIndex i ≤ rf.lastLogIdx + 1

namespace Bounded

/-- Steps that apply nothing and take nothing from the buffer. -/
theorem woken (h : rf.Bounded) (happlied : rf'.lastApplied = rf.lastApplied)
    (hcommit : rf.commitIndex ≤ rf'.commitIndex) (hw : Woken rf.checker rf'.checker)
    (hnext : rf'.state = .leader → ∀ i, rf'.nextIndex i ≤ rf'.lastLogIdx + 1) : rf'.Bounded where
  applied_le := happlied ▸ h.applied_le.trans hcommit
  buffered_le msg hmsg := (h.buffered_le msg (Sim.buffered_of_woken hw ▸ hmsg)).trans hcommit
  next_le := hnext

/-- Steps that change the term, the vote and the role at most. -/
theorem same (h : rf.Bounded) (hlog : SameLog rf rf') (happlied : rf'.lastApplied = rf.lastApplied)
    (hcommit : rf'.commitIndex = rf.commitIndex) (hch : rf'.checker = rf.checker)
    (hnext : rf'.nextIndex = rf.nextIndex) (hl : rf'.state = .leader → rf.state = .leader) :
    rf'.Bounded := by
  refine h.woken happlied hcommit.ge (Or.inl hch) fun hl' i => ?_
  rw [hnext, lastLogIdx, virtualLogIdx, hlog.log, hlog.lastIncludedIndex]
  exact h.next_le (hl hl') i

theorem appendCommand (h : rf.Bounded) (hl : rf.state = .leader) (command : C) :
    (rf.appendCommand command).Bounded := by
  refine h.woken rfl le_rfl (Or.inl rfl) fun _ i => ?_
  have hlast : (rf.appendCommand command).lastLogIdx = rf.virtualLogIdx rf.log.length := by
    simp only [Raft.appendCommand, persist, lastLogIdx, virtualLogIdx, List.length_append,
      List.length_singleton, Nat.add_sub_cancel]
  have hi := h.next_le hl i
  rw [hlast]
  simp only [Raft.appendCommand, persist, Function.update_apply, lastLogIdx, virtualLogIdx] at hi ⊢
  split <;> omega

theorem countVote (h : rf.Bounded) (hne : rf.log ≠ []) : rf.countVote.Bounded := by
  have hpos := List.length_pos_iff.2 hne
  unfold Raft.countVote
  split
  · refine h.woken rfl le_rfl (Or.inl rfl) fun _ i => ?_
    simp only [lastLogIdx, virtualLogIdx]
    omega
  · exact h.same ⟨rfl, rfl, rfl, rfl⟩ rfl rfl rfl rfl id

/-- A reply to entries that are in the leader's log. -/
theorem sendAppendEntries (h : rf.Bounded) (hne : rf.log ≠ []) {server : Fin n}
    {args : AppendEntriesArgs n C} {reply : AppendEntriesReply}
    (hargs : rf.currentTerm ≤ args.term → rf.state = .leader →
      args.prevLogIndex + args.entries.length ≤ rf.lastLogIdx)
    (hr : rf.sendAppendEntries server args reply = some rf') : rf'.Bounded := by
  unfold Raft.sendAppendEntries at hr
  split at hr
  · cases hr
    exact h
  split at hr
  · cases hr
    exact h
  rename_i hterm
  split at hr
  · split at hr
    · cases hr
      exact h.same ⟨rfl, rfl, rfl, rfl⟩ rfl rfl rfl rfl nofun
    split at hr
    · rename_i hl
      obtain ⟨m, hm, hbackup⟩ := backup_le hne (h.next_le hl.2 server)
      rw [hbackup] at hr
      cases hr
      refine h.woken rfl le_rfl (Or.inl rfl) fun _ i => ?_
      have hi := h.next_le hl.2 i
      simp only [Function.update_apply]
      split
      · exact hm
      · exact hi
    · cases hr
      exact h
  · have hmatched := hargs (Int.not_lt.1 hterm)
    have hrecord : ∀ i, rf.state = .leader → Function.update rf.nextIndex server
        (args.prevLogIndex + args.entries.length + 1) i ≤ rf.lastLogIdx + 1 := fun i hl => by
      have hi := h.next_le hl i
      have hm := hmatched hl
      rw [Function.update_apply]
      split <;> omega
    rcases advanceCommit_cases hr with rfl | ⟨N, hN, -, rfl, -⟩
    · exact h.woken rfl le_rfl (Or.inl rfl) fun hl i => hrecord i hl
    · obtain ⟨ch, hch, hw⟩ := signal_eq
        { rf.recordMatch server (args.prevLogIndex + args.entries.length) with commitIndex := N }
      refine hch ▸ h.woken rfl hN.le hw fun hl i => hrecord i hl

theorem handleInstallSnapshot (h : rf.Bounded) (server : Fin n) (reply : InstallSnapshotReply) :
    (rf.handleInstallSnapshot server reply).Bounded := by
  unfold Raft.handleInstallSnapshot
  split
  · exact h
  split
  · exact h.same ⟨rfl, rfl, rfl, rfl⟩ rfl rfl rfl rfl nofun
  · refine h.woken rfl le_rfl (Or.inl rfl) fun hl i => ?_
    have hi := h.next_le hl i
    simp only [Function.update_apply, lastLogIdx, virtualLogIdx] at hi ⊢
    split <;> omega

theorem compact (h : rf.Bounded) {index : ℕ} (hbase : rf.lastIncludedIndex < index)
    (hcommit : index ≤ rf.commitIndex) {e : LogEntry C} (he : rf.logAt index = some e)
    (data : Data) :
    (rf.compact index e.term data).Bounded where
  applied_le := max_le h.applied_le hcommit
  buffered_le := h.buffered_le
  next_le hl i := by
    have hi := h.next_le hl i
    have hlt := (List.getElem?_eq_some_iff.1 (logAt_eq_some.1 he).2).1
    simp only [Raft.compact, persist, lastLogIdx, virtualLogIdx, List.length_drop] at hi ⊢
    omega

theorem install (h : rf.Bounded) (args : InstallSnapshotArgs n C) : (rf.install args).Bounded where
  applied_le := le_max_right _ _
  buffered_le msg hmsg := (h.buffered_le msg hmsg).trans (le_max_left _ _)
  next_le := nofun

theorem commitChecker (h : rf.Bounded) {msg : Option (ApplyMsg C)}
    (hr : rf.commitChecker = some (rf', msg)) : rf'.Bounded := by
  unfold Raft.commitChecker at hr
  split at hr
  · cases hr
    exact { h with buffered_le := fun _ hm => absurd hm List.not_mem_nil }
  · cases hr
  · obtain ⟨msgBuf, hbuf, hr⟩ := Option.bind_eq_some_iff.1 hr
    cases hr
    refine { h with buffered_le := fun msg hmsg => ?_ }
    have happlied := h.applied_le
    rw [fillBuffer, if_neg (Nat.not_lt.2 happlied)] at hbuf
    obtain ⟨j, e, -, hle, -, rfl⟩ := Sim.mem_collect hbuf hmsg
    show j ≤ rf.commitIndex
    omega
  · cases hr
    exact { h with buffered_le := fun _ hm => absurd hm List.not_mem_nil }
  · rename_i msg' msgBuf hch
    cases hr
    refine { h with buffered_le := fun m hm => h.buffered_le m ?_ }
    rw [hch]
    exact hm
  · rename_i msg' msgBuf hch
    have hbuf : ∀ m ∈ msgBuf, m.commandIndex ≤ rf.commitIndex := fun m hm =>
      h.buffered_le m (by rw [hch]; exact List.mem_cons_of_mem _ hm)
    have hsent : msg'.commandIndex ≤ rf.commitIndex :=
      h.buffered_le msg' (by rw [hch]; exact List.mem_cons_self)
    simp only at hr
    split at hr
    · cases hr
      exact { h with buffered_le := hbuf }
    · cases hr
      exact { h with applied_le := max_le hsent h.applied_le, buffered_le := hbuf }

theorem make (me : Fin n) (persister : Persister n C) : (make me persister).Bounded where
  applied_le := by rw [make_lastApplied, make_commitIndex]
  buffered_le := by
    rw [make_checker]
    exact nofun
  next_le hl := by
    rw [make_state] at hl
    cases hl

end Bounded

end Raft

/-! ## Runs -/

section Runs

variable {covers : Data → ℕ → LogEntry C → Prop} {c c' : Cluster n C} {g : History n}
  {p : Proto (Fin n) (LogEntry C)} {a : Action n C}

/-- A request is delivered. -/
theorem Raft.Bounded.deliver (h : Sim covers c g p) (he : Elected c g) {k : ℕ} {call : Call n C}
    (hb : (c.servers call.server).Bounded) (hk : c.calls[k]? = some call) {rf : Raft n C}
    {rpc : Rpc n C} (hhandle : call.rpc.handle (c.servers call.server) = some (rf, rpc)) :
    rf.Bounded := by
  have hok := he.calls call (List.mem_of_getElem? hk)
  rcases Rpc.handle_cases hhandle with ⟨args, reply, hrpc, rfl, hr⟩ |
    ⟨args, reply, -, rfl, hr⟩ | ⟨-, rfl, rfl⟩ | ⟨args, reply, -, rfl, hr⟩
  · have hadopt : ((c.servers call.server).adoptTerm args.term).persist.Bounded := by
      unfold adoptTerm
      split
      · exact hb.same ⟨rfl, rfl, rfl, rfl⟩ rfl rfl rfl rfl nofun
      · exact hb.same ⟨rfl, rfl, rfl, rfl⟩ rfl rfl rfl rfl id
    have hcalm := calm_appendEntries hr
    rcases appendEntries_cases hr with ⟨rfl, -⟩ | ⟨-, -, rfl⟩ | ⟨hle, -, ⟨prev, hat, hprev⟩, rfl⟩
    · exact hb
    · exact hadopt
    · obtain ⟨-, -, -, -, -, -, hcommit, -⟩ := h.merged hk hrpc hle hat hprev rfl
      obtain ⟨ch, hch, hw⟩ := acceptEntries_eq ((c.servers call.server).adoptTerm args.term) args
      obtain ⟨hci, -⟩ := Sim.adoptTerm_frame (c.servers call.server) args.term
      -- a leader gets no entries of its own term
      have hnl : ¬ (((c.servers call.server).adoptTerm args.term).persist.acceptEntries
          args).state = .leader := fun hl => by
        obtain ⟨hl', hterm⟩ := hcalm.leader hl
        have hrpcOk := hok.rpc
        rw [hrpc] at hrpcOk
        refine he.term_ne_of_leader hrpcOk hok.ne hl' (hterm.symm.trans ?_)
        rw [hch]
        exact adoptTerm_term hle
      rw [hch] at hnl ⊢
      exact hadopt.woken rfl (hci.le.trans hcommit) hw fun hl => absurd hl hnl
  · rcases requestVote_cases hr with ⟨rfl, -⟩ | ⟨-, rfl, -⟩ | ⟨-, -, -, rfl, -⟩
    · exact hb
    · exact hb.same ⟨rfl, rfl, rfl, rfl⟩ rfl rfl rfl rfl nofun
    · exact hb.same ⟨rfl, rfl, rfl, rfl⟩ rfl rfl rfl rfl nofun
  · exact hb
  · have hcases := installSnapshot_cases (c.servers call.server) args
    rw [hr] at hcases
    rcases hcases with rfl | ⟨-, rfl⟩
    · exact hb
    · exact hb.install args

/-- A reply is received. -/
theorem Raft.Bounded.receive (h : Sim covers c g p) (he : Elected c g) {k : ℕ} {call : Call n C}
    (hb : (c.servers call.caller).Bounded) (hk : c.calls[k]? = some call) {rf : Raft n C}
    (hfinish : call.rpc.finish (c.servers call.caller) call.server = some rf) : rf.Bounded := by
  have hmem := List.mem_of_getElem? hk
  have hne := he.sound.log_ne_nil call.caller
  rcases Rpc.finish_cases hfinish with ⟨args, reply, hrpc, hr⟩ | ⟨args, reply, -, rfl⟩ |
    ⟨reply, -, rfl⟩ | ⟨args, reply, -, rfl⟩
  · refine hb.sendAppendEntries hne (fun hle hl => ?_) hr
    have hcall := h.calls call hmem
    have hok := (he.calls call hmem).rpc
    rw [hrpc] at hcall hok
    obtain ⟨⟨L, hL⟩, -⟩ := hcall
    obtain ⟨M, hM, hLM⟩ := hL.lead
    obtain ⟨hlead, -⟩ := h.lead_log (he.led call.caller hl)
    have hterm : args.term = (c.servers call.caller).currentTerm :=
      le_antisymm (he.won _ _ hok).1 hle
    rw [hterm, hlead] at hM
    cases hM
    rw [← hL.length, (h.servers call.caller).backs.lastLogIdx_eq]
    exact hLM.length_le
  · rcases sendRequestVote_cases (c.servers call.caller) args reply with hr | ⟨-, -, hr⟩ |
      ⟨-, -, -, hr⟩
    · rwa [hr]
    · rw [hr]
      exact hb.same ⟨rfl, rfl, rfl, rfl⟩ rfl rfl rfl rfl nofun
    · rw [hr]
      exact hb.countVote hne
  · rcases sendPreVote_cases (c.servers call.caller) reply with hr | ⟨-, r, hr', hr⟩
    · rwa [hr]
    · rw [hr]
      exact hb.same ⟨rfl, rfl, rfl, rfl⟩ rfl rfl rfl rfl fun hl => absurd hl hr'
  · exact hb.handleInstallSnapshot call.server reply

/-- **The bounds are kept by every action.** -/
theorem bounded_act (h : Sim covers c g p) (he : Elected c g)
    (hb : ∀ s, (c.servers s).Bounded) (hstep : Cluster.Step c a c') (q : Fin n) :
    (c'.servers q).Bounded := by
  have hset : ∀ {s : Fin n} {rf : Raft n C}, rf.Bounded → ((c.set s rf).servers q).Bounded :=
    fun hrf => Cluster.forall_set (P := fun _ rf => rf.Bounded) hb hrf q
  cases hstep with
  | idle => exact hb q
  | start s command hl => exact hset ((hb s).appendCommand hl command)
  | spawn a s gs hl hgs => exact hb q
  | preVote s hl => exact hset ((hb s).same ⟨rfl, rfl, rfl, rfl⟩ rfl rfl rfl rfl nofun)
  | election s rf args hcand hrf =>
    obtain ⟨rfl, -⟩ := beginElection_eq_some hrf
    exact hset ((hb s).same ⟨rfl, rfl, rfl, rfl⟩ rfl rfl rfl rfl id)
  | dropTask k => exact hb q
  | runTask k t rpc ht hep hl hrpc => exact hb q
  | encode k t j ht hj => exact hb q
  | deliver k call rf rpc hk hhandle => exact hset (Bounded.deliver h he (hb _) hk hhandle)
  | receive k call rf hk hw hep hfinish => exact hset (Bounded.receive h he (hb _) hk hfinish)
  | lose k call hk hep => exact hb q
  | commitChecker s rf msg hrf => exact hset ((hb s).commitChecker hrf)
  | sendSnapshot s k msg hmsg => exact hset ((hb s).same ⟨rfl, rfl, rfl, rfl⟩ rfl rfl rfl rfl id)
  | snapshot s index data rf hrf =>
    rcases snapshot_cases hrf with rfl | ⟨hbase, hle, e, hat, rfl⟩
    · exact hset (hb s)
    · exact hset ((hb s).compact hbase hle hat data)
  | grow s => exact hset ((hb s).same ⟨rfl, rfl, rfl, rfl⟩ rfl rfl rfl rfl id)
  | crash s => exact hset (Bounded.make s (c.servers s).persister)

/-- A server of the protocol that keeps its bounds does not stop. -/
theorem Sim.not_panics (h : Sim covers c g p) (he : Elected c g) (hb : ∀ s, (c.servers s).Bounded)
    (a : Action n C) : ¬ c.Panics a := by
  have hne := he.sound.log_ne_nil
  have hcommit : ∀ s, (c.servers s).commitIndex ≤ (c.servers s).lastLogIdx := fun s => by
    rw [(h.servers s).backs.lastLogIdx_eq]
    exact (h.servers s).commit_le
  intro hpanic
  cases hpanic with
  | doLeader _ s ha hl hnone => exact doLeader_ne_none (hne s) ((hb s).next_le hl) hnone
  | doLeaderSlice _ s i ha hl hbase hlast hslice =>
    rw [lastLogIdx, virtualLogIdx] at hlast
    refine hslice ⟨?_, ?_⟩ <;> rw [realLogIdx] <;> omega
  | ticker s hs hnone => exact beginElection_ne_none (hne s) hnone
  | handleInstallSnapshot k t hk hl ht hnone =>
    exact installSnapshotArgs_ne_none (hne t.caller) hnone
  | requestVote k call args hk hrpc hnone =>
    exact requestVote_ne_none (hne call.server) args hnone
  | appendEntries k call args hk hrpc hnone =>
    exact appendEntries_ne_none (hne call.server) args hnone
  | appendEntriesSlice k call args idx hk hrpc hprev hlt hslice =>
    refine hslice ⟨?_, hlt.le⟩
    rw [realLogIdx]
    omega
  | installSnapshotSlice k call args rIdx hk hrpc hfound hslice =>
    rcases findEntry_cases (c.servers call.server).lastIncludedIndex args.lastIncludedIndex
      args.lastIncludedTerm 0 (c.servers call.server).log with ⟨i, e, hi, hat, -⟩ | ⟨hnone, -⟩
    · rw [hi, Nat.zero_add, Option.some.injEq] at hfound
      have hlt := (List.getElem?_eq_some_iff.1 hat).1
      exact hslice ⟨by omega, by omega⟩
    · rw [hnone] at hfound
      cases hfound
  | sendAppendEntries k call args reply hk hw hep hrpc hnone =>
    exact sendAppendEntries_ne_none (hne call.caller) (h.servers call.caller).commit_base
      (hb call.caller).next_le call.server args reply hnone
  | commitChecker s hs hnone => exact fillBuffer_ne_none (hne s) (hb s).applied_le hnone
  | snapshot s index data hnone => exact snapshot_ne_none (hne s) (hcommit s) index data hnone
  | snapshotSlice s index data hbase hle hslice =>
    have hlast := hcommit s
    rw [lastLogIdx, virtualLogIdx] at hlast
    refine hslice ⟨?_, ?_⟩ <;> rw [realLogIdx] <;> omega

end Runs

theorem bounded_of_run {c : Cluster n C} {as : List (Action n C)}
    (hno : Along Cluster.step Cluster.NoOverwrite Cluster.init as)
    (hstale : Along Cluster.step Cluster.NoStaleSnapshot Cluster.init as)
    (h : run Cluster.step Cluster.init as = some c) :
    (∃ g p, Elected c g ∧ Sim (fun _ _ _ => True) c g p) ∧ ∀ s, (c.servers s).Bounded :=
  sim_induction (P := fun c => ∀ s, (c.servers s).Bounded)
    (fun _ _ _ _ _ he hs hb _ hstep => bounded_act hs he hb hstep) hno hstale h
    fun s => Bounded.make s {}

/-- **No index out of range.** In every state of a run in which no request is overwritten before it
is encoded and no server accepts a snapshot older than its own, no step stops with an index out of
range, and no server has applied more than it knows to be committed. -/
theorem no_panic {c : Cluster n C} {as : List (Action n C)}
    (hno : Along Cluster.step Cluster.NoOverwrite Cluster.init as)
    (hstale : Along Cluster.step Cluster.NoStaleSnapshot Cluster.init as)
    (h : run Cluster.step Cluster.init as = some c) :
    (∀ a, ¬ c.Panics a) ∧ ∀ s, (c.servers s).lastApplied ≤ (c.servers s).commitIndex := by
  obtain ⟨⟨g, p, he, hs⟩, hb⟩ := bounded_of_run hno hstale h
  exact ⟨hs.not_panics he hb, fun s => (hb s).applied_le⟩

/-- Begins as `retriedRun`, where server 2 has installed the snapshot with the first command and
call 6, with the same snapshot, is late. The second command reaches server 2 and server 1, and both
replies of server 2 are lost; the command is committed with server 1. Server 2 learns of it and
delivers it, server 0 compacts it, and so sends server 2 a snapshot of both commands. -/
def twiceCompactedRun : List (Action 3 ℕ) :=
  retriedRun.take 25 ++ ([.commitChecker 0, .commitChecker 0, .commitChecker 0,
    .start 0 8, .msgComing 0, .task 1, .task 1, .deliver 9, .lose 9, .deliver 8, .receive 8,
    .commitChecker 0, .commitChecker 0, .msgComing 0, .task 2, .deliver 10, .lose 10,
    .commitChecker 2, .commitChecker 2, .snapshot 0 2 [7, 8], .msgComing 0, .task 3,
    .deliver 11] : List (Action 3 ℕ))

/-- The late snapshot empties the log of server 2, but `commitIndex` stays 2. Its service has
applied the second command by then, and compacts up to it. -/
theorem no_panic_fails :
    ∃ c : Cluster 3 ℕ,
      run Cluster.step Cluster.init (twiceCompactedRun ++ [Action.deliver 6]) = some c ∧
      Along Cluster.step Cluster.SnapshotsHanded Cluster.init
        (twiceCompactedRun ++ [Action.deliver 6]) ∧
      c.SnapshotsHanded (.snapshot 2 2 [7, 8]) ∧ c.Panics (.snapshot 2 2 [7, 8]) := by
  have h : ∃ c : Cluster 3 ℕ,
      run Cluster.step Cluster.init (twiceCompactedRun ++ [Action.deliver 6]) = some c ∧
        c.SnapshotsHanded (.snapshot 2 2 [7, 8]) ∧ (c.servers 2).snapshot 2 [7, 8] = none := by
    decide +kernel
  obtain ⟨c, hc, hhanded, hnone⟩ := h
  exact ⟨c, hc, by decide +kernel, hhanded, .snapshot 2 2 [7, 8] hnone⟩

theorem no_panic_twiceCompactedRun :
    ∃ c : Cluster 3 ℕ, run Cluster.step Cluster.init twiceCompactedRun = some c ∧
      (c.servers 2).lastIncludedIndex = 2 ∧ (c.servers 2).commitIndex = 2 ∧ ∀ a, ¬ c.Panics a := by
  have h : ∃ c : Cluster 3 ℕ, run Cluster.step Cluster.init twiceCompactedRun = some c ∧
      (c.servers 2).lastIncludedIndex = 2 ∧ (c.servers 2).commitIndex = 2 := by
    decide +kernel
  obtain ⟨c, hc, hbase, hcommit⟩ := h
  exact ⟨c, hc, hbase, hcommit, (no_panic (by decide +kernel) (by decide +kernel) hc).1⟩

end DistSys
