import DistSys.Raft.LogMatching

/-!
# Terms along logs and messages

The terms along a log do not decrease, and none is above the server's term; nor do they along a
message, from the term that it expects at `PrevLogIndex` to the term of its sender. Each needs the
other: a message is the end of a log, and a log takes entries over above an entry that shows the
message's term.

The placeholder at position 0 is no exception. `Snapshot` leaves an entry there. `InstallSnapshot`
may leave a placeholder with the term of an older snapshot, but then nothing else, and what follows
later is compared with the term shown.

A message whose slice is overwritten before it is encoded is the end of no log any more, and the
terms along it can go up and down (`overwrittenRun_disordered`).

Main result: `terms_ordered`, in all runs that overwrite nothing.
-/

namespace DistSys

open Raft

variable {n : ℕ} {C : Type} [Inhabited C]

namespace Raft

variable {rf rf' : Raft n C}

/-! ## One server -/

/-- A server whose terms are in order, that of its snapshot included. -/
structure Ordered (rf : Raft n C) : Prop where
  log : Ascending rf.log rf.currentTerm
  base : rf.lastIncludedTerm ≤ rf.currentTerm

theorem Ordered.same (h : rf.Ordered) (hlog : SameLog rf rf')
    (hterm : rf.currentTerm ≤ rf'.currentTerm) : rf'.Ordered where
  log := by
    rw [hlog.log]
    exact h.log.mono hterm
  base := by
    rw [hlog.lastIncludedTerm]
    exact h.base.trans hterm

theorem Ordered.appendCommand (h : rf.Ordered) (command : C) :
    (rf.appendCommand command).Ordered :=
  ⟨Ascending.concat (e := LogEntry.mk rf.currentTerm command) h.log, h.base⟩

theorem Ordered.appendEntries (h : rf.Ordered) {args : AppendEntriesArgs n C}
    (hargs : Ascending args.segment args.term) {reply : AppendEntriesReply}
    (hr : rf.appendEntries args = some (rf', reply)) : rf'.Ordered := by
  have hsame := sameLog_adoptTerm rf args.term
  have hadopted := h.same hsame (calm_adoptTerm rf args.term).term_le
  rcases appendEntries_cases hr with ⟨rfl, -⟩ | ⟨-, -, rfl⟩ | ⟨hle, -, ⟨prev, hprev, hterm⟩, rfl⟩
  · exact h
  · exact ⟨hadopted.log, hadopted.base⟩
  · obtain ⟨ch, hch, -⟩ := acceptEntries_eq (rf.adoptTerm args.term) args
    have hmerged : Ascending ((rf.adoptTerm args.term).mergedLog args)
        (rf.adoptTerm args.term).currentTerm := by
      have hprev' : (rf.adoptTerm args.term).logAt args.prevLogIndex = some prev := by
        rwa [logAt, realLogIdx, hsame.log, hsame.lastIncludedIndex]
      rcases mergedLog_splice hprev' hterm with heq | ⟨i, j, p, p', hp, hp', hpp, -, heq⟩
      · rw [heq]
        exact hadopted.log
      · rw [heq]
        exact hadopted.log.splice (hargs.mono (adoptTerm_term hle).ge) hp hp' hpp
    rw [hch]
    exact ⟨hmerged, hadopted.base⟩

theorem Ordered.install (h : rf.Ordered) {args : InstallSnapshotArgs n C}
    (hle : rf.currentTerm ≤ args.term) (hargs : args.lastIncludedTerm ≤ args.term) :
    (rf.install args).Ordered where
  log := by
    show Ascending (rf.installedLog args) args.term
    rcases installedLog_cases rf args with ⟨k, e, -, -, -, heq⟩ | ⟨-, heq⟩
    · rw [heq]
      exact (h.log.mono hle).drop k
    · -- the placeholder has the term of the server's own last snapshot
      rw [heq]
      exact .singleton (h.base.trans hle)
  base := hargs

theorem Ordered.snapshot (h : rf.Ordered) {index : ℕ} {data : Data}
    (hr : rf.snapshot index data = some rf') : rf'.Ordered := by
  rcases snapshot_cases hr with rfl | ⟨-, -, e, he, rfl⟩
  · exact h
  · exact ⟨h.log.drop _, h.log.le e (List.mem_of_getElem? (logAt_eq_some.1 he).2)⟩

theorem ascending_segment (h : rf.Ordered) {i : Fin n} {args : AppendEntriesArgs n C}
    (hargs : rf.doLeaderFor i = some (i, .sendAppendEntries args)) :
    Ascending args.segment args.term := by
  obtain ⟨hsent, k, prev, -, hdrop, hterm⟩ := segment_of_doLeaderFor hargs
  have hend := h.log.drop k
  rw [hdrop, ← hsent] at hend
  exact hend.cons_congr hterm

end Raft

/-! ## The cluster -/

/-- Terms are in order in all logs and messages, sent or to be sent. -/
structure Cluster.Ordered (c : Cluster n C) : Prop where
  servers : ∀ s, (c.servers s).Ordered
  tasks : ∀ t ∈ c.tasks, ∀ args, t.task = .sendAppendEntries args →
    Ascending args.segment args.term
  calls : ∀ call ∈ c.calls, ∀ args reply, call.rpc = .appendEntries args reply →
    Ascending args.segment args.term
  snapshots : ∀ call ∈ c.calls, ∀ args reply, call.rpc = .installSnapshot args reply →
    args.lastIncludedTerm ≤ args.term

namespace Cluster.Ordered

variable {c c' : Cluster n C} {a : Action n C}

theorem handle (h : c.Ordered) {call : Call n C} (hcall : call ∈ c.calls) {rf : Raft n C}
    {rpc : Rpc n C} (hr : call.rpc.handle (c.servers call.server) = some (rf, rpc)) :
    rf.Ordered := by
  have hserver := h.servers call.server
  rcases Rpc.handle_cases hr with ⟨args, reply, hrpc, -, hr⟩ | ⟨args, reply, -, -, hr⟩ |
    ⟨-, -, rfl⟩ | ⟨args, reply, hrpc, -, hr⟩
  · exact hserver.appendEntries (h.calls call hcall args none hrpc) hr
  · exact hserver.same (sameLog_requestVote hr) (calm_requestVote hr).term_le
  · exact hserver
  · have hcases := installSnapshot_cases (c.servers call.server) args
    rw [hr] at hcases
    rcases hcases with rfl | ⟨hle, rfl⟩
    · exact hserver
    · exact hserver.install hle (h.snapshots call hcall args none hrpc)

theorem servers_step (h : c.Ordered) (hc : c.Sound) (hstep : Step c a c') (q : Fin n) :
    (c'.servers q).Ordered := by
  have hq := h.servers q
  have hlog := hstep.logStep hc q
  generalize c'.servers q = rf at hlog ⊢
  cases hlog with
  | same _ hsame hterm => exact hq.same hsame hterm
  | start command => exact hq.appendCommand command
  | handle k call _ rpc ha hk hserver hr =>
    subst hserver
    exact h.handle (List.mem_of_getElem? hk) hr
  | snapshot index data _ ha hr => exact hq.snapshot hr

/-- **Every action keeps the terms in order.** -/
theorem act (h : c.Ordered) (hc : c.Sound) (hcases : Step c a c') : c'.Ordered := by
  refine ⟨h.servers_step hc hcases, fun t ht args hargs => ?_,
    fun call hcall args reply hargs => ?_, fun call hcall args reply hargs => ?_⟩
  · rcases hcases.mem_tasks ht with ⟨old, hold, j, rfl, -⟩ | ⟨s, i, -, hsend, -⟩
    · exact h.tasks old hold args hargs
    · rw [hargs] at hsend
      exact ascending_segment (h.servers s) hsend
  · rcases hcases.mem_appendEntries hcall hargs with ⟨old, hold, reply', hold'⟩ | ⟨t, ht, htask⟩
    · exact h.calls old hold args reply' hold'
    · exact h.tasks t ht args htask
  · rcases hcases.mem_installSnapshot hcall hargs with ⟨old, hold, reply', hold'⟩ | ⟨s, -, hargs'⟩
    · exact h.snapshots old hold args reply' hold'
    · obtain ⟨first, -, hargs'⟩ := Option.bind_eq_some_iff.1 hargs'
      cases hargs'
      exact (h.servers s).base

theorem init : (Cluster.init : Cluster n C).Ordered where
  servers s := ⟨.singleton (show (-1 : ℤ) ≤ 1 by decide), show (-1 : ℤ) ≤ 1 by decide⟩
  tasks t ht := by cases ht
  calls call hcall := by cases hcall
  snapshots call hcall := by cases hcall

end Cluster.Ordered

/-- **Terms are ordered.** After every run that overwrites no request before it is encoded, the
terms along every log, from the placeholder on, do not decrease and are at most the server's term.
So are those of every `AppendEntries` in flight, from `PrevLogTerm` over its entries to the term of
the message. -/
theorem terms_ordered {c : Cluster n C} {as : List (Action n C)}
    (hno : Along Cluster.step Cluster.NoOverwrite Cluster.init as)
    (h : run Cluster.step Cluster.init as = some c) :
    (∀ s, (c.servers s).log.Pairwise (fun e e' => e.term ≤ e'.term) ∧
      ∀ e ∈ (c.servers s).log, e.term ≤ (c.servers s).currentTerm) ∧
    ∀ call ∈ c.calls, ∀ args reply, call.rpc = .appendEntries args reply →
      (args.prevLogTerm :: args.entries.map LogEntry.term ++ [args.term]).Pairwise (· ≤ ·) := by
  obtain ⟨-, hordered⟩ := Cluster.Intact.run_invariant (P := fun c => c.Ordered ∧ c.Sound)
    (fun _ _ _ _ hc hstep => ⟨hc.1.act hc.2 hstep, hc.2.act hstep⟩) hno h .init
    ⟨.init, Cluster.sound_init⟩
  refine ⟨fun s => ⟨(hordered.1.servers s).log.sorted, (hordered.1.servers s).log.le⟩,
    fun call hcall args reply hargs => ?_⟩
  have hsegment := hordered.1.calls call hcall args reply hargs
  have hterms : args.prevLogTerm :: args.entries.map LogEntry.term =
      args.segment.map LogEntry.term := rfl
  rw [hterms]
  refine List.pairwise_append.2 ⟨List.pairwise_map.2 hsegment.sorted, List.pairwise_singleton _ _,
    fun t ht t' ht' => ?_⟩
  obtain ⟨e, he, rfl⟩ := List.mem_map.1 ht
  rw [List.mem_singleton.1 ht']
  exact hsegment.le e he

/-- A leader that has compacted its log sends its second entry, and stops. -/
def sentRun : List (Action 3 ℕ) :=
  startedRun ++
    [.msgComing 0, .task 0, .deliver 4, .receive 4, .snapshot 0 1 [9], .start 0 8, .msgComing 0,
      .task 1, .crash 0]

theorem terms_ordered_sentRun : ∃ c : Cluster 3 ℕ,
    run Cluster.step Cluster.init sentRun = some c ∧
    (c.servers 0).log = [⟨2, 7⟩, ⟨2, 8⟩] ∧
    (c.servers 0).log.Pairwise fun e e' => e.term ≤ e'.term := by
  have h : ∃ c : Cluster 3 ℕ, run Cluster.step Cluster.init sentRun = some c ∧
      (c.servers 0).log = [⟨2, 7⟩, ⟨2, 8⟩] := by
    decide +kernel
  obtain ⟨c, hc, hlog⟩ := h
  exact ⟨c, hc, hlog, ((terms_ordered (by decide +kernel) hc).1 0).1⟩

/-- The request of `overwrittenRun` that leaves after it was overwritten: of term 2, with an entry
of term 3. -/
def disorderedArgs : AppendEntriesArgs 7 ℕ :=
  { term := 2
    leaderId := 0
    prevLogIndex := 0
    prevLogTerm := -1
    entries := [⟨2, 7⟩, ⟨3, 5⟩, ⟨2, 9⟩]
    leaderCommit := 0 }

/-- Its entries are then the log of server 2, whose term is 2. -/
theorem overwrittenRun_disordered :
    ∃ c : Cluster 7 ℕ, run Cluster.step Cluster.init overwrittenRun = some c ∧
      (∃ call ∈ c.calls, call.rpc = .appendEntries disorderedArgs (some ⟨2, true⟩)) ∧
      ¬ (disorderedArgs.prevLogTerm :: disorderedArgs.entries.map LogEntry.term ++
        [disorderedArgs.term]).Pairwise (· ≤ ·) ∧
      (c.servers 2).currentTerm = 2 ∧ (c.servers 2).log.map LogEntry.term = [-1, 2, 3, 2] ∧
      ¬ (c.servers 2).log.Pairwise fun e e' => e.term ≤ e'.term := by
  decide +kernel

end DistSys
