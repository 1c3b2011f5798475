import DistSys.Raft.Safety

/-!
# Installing snapshots

What `InstallSnapshot` does to the boundary of the log and to the indices of the server that accepts
it.

The boundary: `log[0]` stands for the last entry of the snapshot and should have its term. An
emptied log gets the term of the server's previous snapshot instead, which is right only when the
two terms are the same (`KnownBoundary`).

The indices: the handler takes `LastIncludedIndex` over whatever it is, and empties the log if it
does not find the entry there. Nothing moves back when the snapshot is not below what the server has
applied and reaches `commitIndex` or ends with an entry of the log (`Continues`). In runs of the
protocol the second half is not needed (`installSnapshot_keeps`): the request stands for a segment
of the leader's log, which the committed entries continue.

Main results: `boundary_term`, `installSnapshot_forward`, `installSnapshot_keeps`.
-/

namespace DistSys

open Raft

variable {n : ℕ} {C : Type} [Inhabited C]

/-! ## The boundary -/

namespace Raft

variable {rf rf' : Raft n C}

/-- The first entry of the log has the term of the last one in the snapshot. -/
def Boundary (rf : Raft n C) : Prop :=
  ∃ e, rf.log.head? = some e ∧ e.term = rf.lastIncludedTerm

/-- The last entry of a snapshot that the server would accept is in its log, or has the term of the
last entry of its own snapshot. -/
def Rpc.KnownBoundary (rf : Raft n C) : Rpc n C → Prop
  | .installSnapshot args none => rf.currentTerm ≤ args.term →
      (∃ e ∈ rf.logAt args.lastIncludedIndex, e.term = args.lastIncludedTerm) ∨
        args.lastIncludedTerm = rf.lastIncludedTerm
  | _ => True

instance : (rpc : Rpc n C) → Decidable (rpc.KnownBoundary rf)
  | .installSnapshot args none => inferInstanceAs (Decidable (rf.currentTerm ≤ args.term →
      (∃ e ∈ rf.logAt args.lastIncludedIndex, e.term = args.lastIncludedTerm) ∨
        args.lastIncludedTerm = rf.lastIncludedTerm))
  | .installSnapshot _ (some _) | .appendEntries _ _ | .requestVote _ _ | .preVote _ =>
    isTrue trivial

/-- What is at the boundary of the log has not changed. -/
structure SameHead (rf rf' : Raft n C) : Prop where
  head : rf'.log.head? = rf.log.head?
  lastIncludedIndex : rf'.lastIncludedIndex = rf.lastIncludedIndex
  lastIncludedTerm : rf'.lastIncludedTerm = rf.lastIncludedTerm

theorem SameHead.refl (rf : Raft n C) : SameHead rf rf := ⟨rfl, rfl, rfl⟩

theorem SameLog.sameHead (h : SameLog rf rf') : SameHead rf rf' :=
  ⟨congrArg List.head? h.log, h.lastIncludedIndex, h.lastIncludedTerm⟩

omit [Inhabited C] in
theorem head?_of_take {l l' : List (LogEntry C)} {k : ℕ} (h : l.take (k + 1) = l'.take (k + 1)) :
    l.head? = l'.head? := by
  have hhead := congrArg List.head? h
  rwa [List.head?_take, List.head?_take, if_neg (Nat.succ_ne_zero k),
    if_neg (Nat.succ_ne_zero k)] at hhead

/-- Of the requests, only a snapshot moves the boundary. -/
theorem Rpc.handle_sameHead {rpc rpc' : Rpc n C} (hr : rpc.handle rf = some (rf', rpc')) :
    SameHead rf rf' ∨ ∃ args, rpc = .installSnapshot args none ∧ rf.currentTerm ≤ args.term ∧
      rf' = rf.install args := by
  rcases Rpc.handle_cases hr with ⟨args, reply, rfl, -, hr⟩ | ⟨args, reply, rfl, -, hr⟩ |
    ⟨-, -, rfl⟩ | ⟨args, reply, rfl, -, hr⟩
  · left
    have hadopt := sameLog_adoptTerm rf args.term
    rcases appendEntries_cases hr with ⟨rfl, -⟩ | ⟨-, -, rfl⟩ | ⟨-, -, ⟨prev, hprev, -⟩, rfl⟩
    · exact .refl rf'
    · exact ⟨hadopt.sameHead.head, hadopt.lastIncludedIndex, hadopt.lastIncludedTerm⟩
    · obtain ⟨ch, hch, -⟩ := acceptEntries_eq (rf.adoptTerm args.term) args
      rw [hch]
      have hprev' : (rf.adoptTerm args.term).logAt args.prevLogIndex = some prev := by
        rwa [logAt, realLogIdx, hadopt.log, hadopt.lastIncludedIndex]
      exact ⟨(head?_of_take (take_mergedLog hprev')).trans hadopt.sameHead.head,
        hadopt.lastIncludedIndex, hadopt.lastIncludedTerm⟩
  · exact .inl (sameLog_requestVote hr).sameHead
  · exact .inl (.refl rf')
  · have hcases := installSnapshot_cases rf args
    rw [hr] at hcases
    rcases hcases with rfl | ⟨hle, rfl⟩
    · exact .inl (.refl _)
    · exact .inr ⟨args, rfl, hle, rfl⟩

theorem Boundary.of_sameHead (h : rf.Boundary) (hs : SameHead rf rf') : rf'.Boundary := by
  rw [Boundary, hs.head, hs.lastIncludedTerm]
  exact h

/-- A log that has the last entry of the snapshot is cut there. -/
theorem installedLog_of_found {args : InstallSnapshotArgs n C}
    (hfound : ∃ e ∈ rf.logAt args.lastIncludedIndex, e.term = args.lastIncludedTerm) :
    ∃ k, rf.lastIncludedIndex + k = args.lastIncludedIndex ∧
      rf.installedLog args = rf.log.drop k := by
  rcases installedLog_cases rf args with ⟨k, e, -, -, hk, heq⟩ | ⟨hnone, -⟩
  · exact ⟨k, hk, heq⟩
  · obtain ⟨e, he, hterm⟩ := hfound
    obtain ⟨hle, hat⟩ := logAt_eq_some.1 he
    exact absurd hterm (hnone _ e hat (by omega))

theorem boundary_install {args : InstallSnapshotArgs n C}
    (hknown : (∃ e ∈ rf.logAt args.lastIncludedIndex, e.term = args.lastIncludedTerm) ∨
      args.lastIncludedTerm = rf.lastIncludedTerm) : (rf.install args).Boundary := by
  rcases installedLog_cases rf args with ⟨k, e, hk, he, -, heq⟩ | ⟨hnone, heq⟩
  · refine ⟨e, ?_, he⟩
    show (rf.installedLog args).head? = some e
    rw [heq, List.head?_drop, hk]
  · refine ⟨⟨rf.lastIncludedTerm, args.lastIncludedCmd⟩, ?_, ?_⟩
    · show (rf.installedLog args).head? = _
      rw [heq]
      rfl
    · rcases hknown with ⟨e, he, hterm⟩ | hterm
      · obtain ⟨hle, hat⟩ := logAt_eq_some.1 he
        exact absurd hterm (hnone _ e hat (by omega))
      · exact hterm.symm

theorem boundary_compact {index : ℕ} {e : LogEntry C} (he : rf.logAt index = some e)
    (data : Data) : (rf.compact index e.term data).Boundary := by
  refine ⟨e, ?_, rfl⟩
  show (rf.log.drop (index - rf.lastIncludedIndex)).head? = some e
  rw [List.head?_drop]
  exact (logAt_eq_some.1 he).2

end Raft

namespace Cluster

variable {c c' : Cluster n C} {a : Action n C}

/-- What a step does to the boundary of the log of `s`: nothing, or it is the delivery of a snapshot
to `s` or a compaction by `s`. -/
theorem Step.sameHead (hc : c.Sound) (hstep : Step c a c') (s : Fin n) :
    SameHead (c.servers s) (c'.servers s) ∨
    (∃ k call args, a = .deliver k ∧ c.calls[k]? = some call ∧ call.server = s ∧
      call.rpc = .installSnapshot args none ∧ (c.servers s).currentTerm ≤ args.term ∧
      c'.servers s = (c.servers s).install args) ∨
    ∃ index e data, (c.servers s).lastIncludedIndex < index ∧
      (c.servers s).logAt index = some e ∧
      c'.servers s = (c.servers s).compact index e.term data := by
  have hlog := hstep.logStep hc s
  generalize c'.servers s = rf at hlog ⊢
  cases hlog with
  | same _ hsame hterm => exact .inl hsame.sameHead
  | start command =>
    refine .inl ⟨?_, rfl, rfl⟩
    obtain ⟨e, he⟩ := Option.ne_none_iff_exists'.1
      (mt List.head?_eq_none_iff.1 (hc.log_ne_nil s))
    show ((c.servers s).log ++ [_]).head? = _
    rw [List.head?_append, he, Option.some_or]
  | handle k call _ rpc ha hk hserver h =>
    rcases Rpc.handle_sameHead h with hsame | ⟨args, hrpc, hle, rfl⟩
    · exact .inl hsame
    · exact .inr (.inl ⟨k, call, args, ha, hk, hserver, hrpc, hle, rfl⟩)
  | snapshot index data _ ha h =>
    rcases snapshot_cases h with rfl | ⟨hlt, -, e, he, rfl⟩
    · exact .inl (.refl _)
    · exact .inr (.inr ⟨index, e, data, hlt, he, rfl⟩)

def KnownBoundaries (c : Cluster n C) : Action n C → Prop
  | .deliver k => ∀ call ∈ c.calls[k]?, call.rpc.KnownBoundary (c.servers call.server)
  | _ => True

instance : (a : Action n C) → Decidable (c.KnownBoundaries a)
  | .deliver k => inferInstanceAs (Decidable
      (∀ call ∈ c.calls[k]?, call.rpc.KnownBoundary (c.servers call.server)))
  | .start _ _ | .msgComing _ | .timeout _ | .task _ | .encode _ | .receive _ | .lose _
  | .commitChecker _ | .sendSnapshot _ _ | .snapshot _ _ _ | .grow _ | .crash _ => isTrue trivial

theorem step_boundary (hc : c.Sound) (hb : ∀ s, (c.servers s).Boundary)
    (hknown : c.KnownBoundaries a) (hstep : c.step a = some c') (s : Fin n) :
    (c'.servers s).Boundary := by
  obtain ⟨c₀, hact, rfl⟩ := step_cases hstep
  show (c₀.servers s).Boundary
  rcases hact.sameHead hc s with hsame | ⟨k, call, args, rfl, hk, rfl, hrpc, hle, heq⟩ |
    ⟨index, e, data, -, he, heq⟩
  · exact (hb s).of_sameHead hsame
  · have hcall := hknown call hk
    rw [hrpc] at hcall
    rw [heq]
    exact boundary_install (hcall hle)
  · rw [heq]
    exact boundary_compact he data

end Cluster

/-- **The boundary of the log** has the term of the last entry in the snapshot, in every run in
which each snapshot that is accepted ends with an entry of the log, or with the term of the snapshot
before. -/
theorem boundary_term {c : Cluster n C} {as : List (Action n C)}
    (hknown : Along Cluster.step Cluster.KnownBoundaries Cluster.init as)
    (h : run Cluster.step Cluster.init as = some c) (s : Fin n) :
    ∃ e rest, (c.servers s).log = e :: rest ∧ e.term = (c.servers s).lastIncludedTerm ∧
      (c.servers s).logAt (c.servers s).lastIncludedIndex = some e := by
  have hinv := run_induction
    (P := fun c : Cluster n C => c.Sound ∧ ∀ s, (c.servers s).Boundary)
    (fun _ _ _ h hknown hstep => ⟨h.1.step hstep, Cluster.step_boundary h.1 h.2 hknown hstep⟩)
    hknown h ⟨Cluster.sound_init, fun s => ⟨_, rfl, rfl⟩⟩
  obtain ⟨e, he, hterm⟩ := hinv.2 s
  obtain ⟨rest, hlog⟩ := List.head?_eq_some_iff.1 he
  refine ⟨e, rest, hlog, hterm, ?_⟩
  rw [logAt_of_le le_rfl, Nat.sub_self, hlog]
  rfl

/-- Server 0 of three leads term 2 and has committed and compacted one command with server 1. Server
2 has got nothing so far and is sent the snapshot (call 5). -/
def emptyFollowerRun : List (Action 3 ℕ) :=
  startedRun ++ ([.commitChecker 0, .msgComing 0, .task 0, .deliver 4, .receive 4, .commitChecker 0,
    .commitChecker 0, .snapshot 0 1 [7], .msgComing 0, .task 2] : List (Action 3 ℕ))

/-- Server 2 puts the term of its own previous snapshot at the boundary. -/
theorem boundary_term_fails :
    ∃ c : Cluster 3 ℕ,
      run Cluster.step Cluster.init (emptyFollowerRun ++ [Action.deliver 5]) = some c ∧
      (c.servers 2).lastIncludedIndex = 1 ∧ (c.servers 2).lastIncludedTerm = 2 ∧
      (c.servers 2).log = [⟨-1, 7⟩] := by
  decide +kernel

theorem boundary_term_retriedRun :
    ∃ c : Cluster 3 ℕ, run Cluster.step Cluster.init retriedRun = some c ∧
      (c.servers 2).lastIncludedIndex = 1 ∧
      ∃ e rest, (c.servers 2).log = e :: rest ∧ e.term = (c.servers 2).lastIncludedTerm := by
  have h : ∃ c : Cluster 3 ℕ, run Cluster.step Cluster.init retriedRun = some c ∧
      (c.servers 2).lastIncludedIndex = 1 := by
    decide +kernel
  obtain ⟨c, hc, hbase⟩ := h
  obtain ⟨e, rest, hlog, hterm, -⟩ := boundary_term (by decide +kernel) hc 2
  exact ⟨c, hc, hbase, e, rest, hlog, hterm⟩

/-! ## Moving forward -/

theorem served_of_run {c : Cluster n C} {as : List (Action n C)}
    (h : run Cluster.step Cluster.init as = some c) (s : Fin n) :
    Served (fun _ => True) (c.servers s) := by
  have hinv := run_invariant
    (P := fun c : Cluster n C => c.Sound ∧ ∀ s, Served (fun _ => True) (c.servers s))
    (fun _ _ _ h hstep => by
      obtain ⟨c₀, hact, rfl⟩ := Cluster.step_cases hstep
      exact ⟨h.1.step hstep, fun s => (h.2 s).move (hact.move h.1 s)⟩)
    h ⟨Cluster.sound_init, fun s => served_make s {} fun _ _ => trivial⟩
  exact hinv.2 s

/-- The committed entries above an accepted snapshot stay where they are. -/
theorem Sim.installed_logAt {covers : Data → ℕ → LogEntry C → Prop} {c : Cluster n C}
    {g : History n} {p : Proto (Fin n) (LogEntry C)} (h : Sim covers c g p) {k : ℕ}
    {call : Call n C} (hk : c.calls[k]? = some call) {args : InstallSnapshotArgs n C}
    (hrpc : call.rpc = .installSnapshot args none)
    (hT : (c.servers call.server).currentTerm ≤ args.term)
    (hfresh : (c.servers call.server).lastIncludedIndex ≤ args.lastIncludedIndex) {v : ℕ}
    (hv : args.lastIncludedIndex < v) (hcommit : v ≤ (c.servers call.server).commitIndex) :
    ((c.servers call.server).install args).logAt v = (c.servers call.server).logAt v := by
  have hs := h.servers call.server
  obtain ⟨M, L, hM, hLM, -, b, hbacks, -⟩ := h.installed hk hrpc hT hfresh
  obtain ⟨i, rfl⟩ : ∃ i, v = i + 1 := ⟨v - 1, by omega⟩
  have hbase : ((c.servers call.server).install args).lastIncludedIndex ≤ i := Nat.lt_succ_iff.1 hv
  rw [hbacks.logAt_eq hbase, hs.backs.logAt_eq (by omega)]
  exact Sim.getElem?_of_take_isPrefix (h.committed_adopt _ hM hLM hT) hs.commit_le hcommit

/-- The snapshot takes nothing away that the server knows to be committed: it is not below what the
server has applied, and it reaches `commitIndex` or ends with an entry of the log. -/
structure Raft.Continues (rf : Raft n C) (args : InstallSnapshotArgs n C) : Prop where
  applied_le : rf.lastApplied ≤ args.lastIncludedIndex
  reaches : rf.commitIndex ≤ args.lastIncludedIndex ∨
    ∃ e ∈ rf.logAt args.lastIncludedIndex, e.term = args.lastIncludedTerm

theorem Raft.logAt_install {rf : Raft n C} {args : InstallSnapshotArgs n C}
    (hfound : ∃ e ∈ rf.logAt args.lastIncludedIndex, e.term = args.lastIncludedTerm) {v : ℕ}
    (hv : args.lastIncludedIndex ≤ v) : (rf.install args).logAt v = rf.logAt v := by
  obtain ⟨k, hk, hlog⟩ := installedLog_of_found hfound
  have hbase : rf.lastIncludedIndex ≤ v := by omega
  rw [logAt_of_le hbase, logAt_of_le (show (rf.install args).lastIncludedIndex ≤ v from hv)]
  show (rf.installedLog args)[v - args.lastIncludedIndex]? = _
  rw [hlog, List.getElem?_drop]
  congr 1
  omega

theorem Cluster.deliver_installSnapshot {c c' : Cluster n C} {k : ℕ} {call : Call n C}
    (hk : c.calls[k]? = some call) {args : InstallSnapshotArgs n C}
    (hrpc : call.rpc = .installSnapshot args none)
    (hT : (c.servers call.server).currentTerm ≤ args.term)
    (hstep : c.step (.deliver k) = some c') :
    c'.servers call.server = (c.servers call.server).install args := by
  obtain ⟨c₀, hact, rfl⟩ := Option.map_eq_some_iff.1 hstep
  obtain ⟨call', hk', hact⟩ := Option.bind_eq_some_iff.1 hact
  obtain rfl : call' = call := Option.some.inj (hk'.symm.trans hk)
  rw [hrpc, Rpc.handle, installSnapshot_of_le hT] at hact
  cases hact
  exact Function.update_self ..

/-- **`InstallSnapshot` does not move a server back** when it brings a snapshot that is not below
what the server has applied and that reaches `commitIndex` or ends with an entry of the server's
log. -/
theorem installSnapshot_forward {c c' : Cluster n C} {as : List (Action n C)}
    (h : run Cluster.step Cluster.init as = some c) {k : ℕ} {call : Call n C}
    (hk : c.calls[k]? = some call) {args : InstallSnapshotArgs n C}
    (hrpc : call.rpc = .installSnapshot args none)
    (haccepted : (c.servers call.server).currentTerm ≤ args.term)
    (hcont : (c.servers call.server).Continues args)
    (hstep : c.step (.deliver k) = some c') :
    (c.servers call.server).lastIncludedIndex ≤ (c'.servers call.server).lastIncludedIndex ∧
      (c.servers call.server).commitIndex ≤ (c'.servers call.server).commitIndex ∧
      (c.servers call.server).lastApplied ≤ (c'.servers call.server).lastApplied ∧
      ∀ v e, args.lastIncludedIndex < v → v ≤ (c.servers call.server).commitIndex →
        (c.servers call.server).logAt v = some e → (c'.servers call.server).logAt v = some e := by
  have hbase := ((served_of_run h call.server).base_le).trans hcont.applied_le
  rw [Cluster.deliver_installSnapshot hk hrpc haccepted hstep]
  refine ⟨hbase, Nat.le_max_left _ _, hcont.applied_le, fun v e hv hcommit hat => ?_⟩
  rcases hcont.reaches with hreach | hfound
  · omega
  · rw [logAt_install hfound hv.le, hat]

/-- Server 0 leads term 2. Server 2 has both commands and knows that they are committed, but has
applied none. Server 0 compacts the first and, as the replies of server 2 are lost, sends it the
snapshot. -/
def laggingRun : List (Action 3 ℕ) :=
  firstElection ++ ([.commitChecker 0, .start 0 7, .start 0 8, .msgComing 0, .task 0, .task 0,
    .deliver 4, .receive 4, .deliver 5, .lose 5, .msgComing 0, .task 1, .deliver 6, .lose 6,
    .commitChecker 0, .commitChecker 0, .snapshot 0 1 [7], .msgComing 0, .task 2] : List (Action 3 ℕ))

theorem installSnapshot_forward_laggingRun :
    ∃ c c' : Cluster 3 ℕ, run Cluster.step Cluster.init laggingRun = some c ∧
      c.step (.deliver 7) = some c' ∧ (c.servers 2).lastIncludedIndex = 0 ∧
      (c'.servers 2).lastIncludedIndex = 1 ∧ (c.servers 2).commitIndex = 2 ∧
      (c'.servers 2).logAt 2 = some ⟨2, 8⟩ := by
  have h : ∃ c : Cluster 3 ℕ, run Cluster.step Cluster.init laggingRun = some c ∧
      (∃ call : Call 3 ℕ, c.calls[7]? = some call ∧
        call.rpc = .installSnapshot ⟨2, 0, 1, 2, [7], 7⟩ none ∧ call.server = 2) ∧
      (c.servers 2).currentTerm ≤ 2 ∧ (c.servers 2).lastApplied ≤ 1 ∧
      (c.servers 2).logAt 1 = some ⟨2, 7⟩ ∧ (c.servers 2).logAt 2 = some ⟨2, 8⟩ ∧
      (c.servers 2).lastIncludedIndex = 0 ∧ (c.servers 2).commitIndex = 2 ∧
      ∃ c', c.step (.deliver 7) = some c' ∧ (c'.servers 2).lastIncludedIndex = 1 := by
    decide +kernel
  obtain ⟨c, hc, ⟨call, hk, hrpc, hserver⟩, hterm, happlied, hat, hat₂, hbase, hcommit, c', hstep,
    hbase'⟩ := h
  have hcont : (c.servers call.server).Continues ⟨2, 0, 1, 2, [7], 7⟩ := by
    rw [hserver]
    exact ⟨happlied, Or.inr ⟨_, hat, rfl⟩⟩
  have hforward := installSnapshot_forward hc hk hrpc (by rw [hserver]; exact hterm) hcont hstep
  rw [hserver] at hforward
  exact ⟨c, c', hc, hstep, hbase, hbase', hcommit,
    hforward.2.2.2 2 ⟨2, 8⟩ (Nat.lt_succ_self 1) hcommit.ge hat₂⟩

/-- **Committed entries stay** in runs that overwrite no request and accept no stale snapshots, for
every snapshot that is not below what the server has applied. -/
theorem installSnapshot_keeps {c c' : Cluster n C} {as : List (Action n C)}
    (hno : Along Cluster.step Cluster.NoOverwrite Cluster.init as)
    (hstale : Along Cluster.step Cluster.NoStaleSnapshot Cluster.init as)
    (h : run Cluster.step Cluster.init as = some c) {k : ℕ} {call : Call n C}
    (hk : c.calls[k]? = some call) {args : InstallSnapshotArgs n C}
    (hrpc : call.rpc = .installSnapshot args none)
    (haccepted : (c.servers call.server).currentTerm ≤ args.term)
    (hfresh : (c.servers call.server).lastApplied ≤ args.lastIncludedIndex)
    (hstep : c.step (.deliver k) = some c') {v : ℕ} (hv : args.lastIncludedIndex < v)
    (hcommit : v ≤ (c.servers call.server).commitIndex) :
    (c'.servers call.server).logAt v = (c.servers call.server).logAt v := by
  obtain ⟨g, p, -, hs⟩ := exists_sim_true hno hstale h
  have hbase := ((served_of_run h call.server).base_le).trans hfresh
  rw [Cluster.deliver_installSnapshot hk hrpc haccepted hstep]
  exact hs.installed_logAt hk hrpc haccepted hbase hv hcommit

/-- Server 2 has applied and compacted two commands when the late snapshot of the first arrives. -/
theorem installSnapshot_forward_fails :
    ∃ c c' : Cluster 3 ℕ, run Cluster.step Cluster.init (retriedRun ++
        [Action.commitChecker 2, Action.commitChecker 2, Action.snapshot 2 2 [7, 8]]) = some c ∧
      Along Cluster.step Cluster.SnapshotsHanded Cluster.init (retriedRun ++
        [Action.commitChecker 2, Action.commitChecker 2, Action.snapshot 2 2 [7, 8]]) ∧
      c.step (.deliver 6) = some c' ∧
      (c.servers 2).lastIncludedIndex = 2 ∧ (c'.servers 2).lastIncludedIndex = 1 ∧
      (c.servers 2).lastApplied = 2 ∧ (c'.servers 2).lastApplied = 1 ∧
      (c.servers 2).commitIndex = 2 ∧ (c.servers 2).logAt 2 = some ⟨2, 8⟩ ∧
      (c'.servers 2).logAt 2 = none := by
  have h : ∃ c : Cluster 3 ℕ, run Cluster.step Cluster.init (retriedRun ++
        [Action.commitChecker 2, Action.commitChecker 2, Action.snapshot 2 2 [7, 8]]) = some c ∧
      (c.servers 2).lastIncludedIndex = 2 ∧ (c.servers 2).lastApplied = 2 ∧
      (c.servers 2).commitIndex = 2 ∧ (c.servers 2).logAt 2 = some ⟨2, 8⟩ ∧
      ∃ c', c.step (.deliver 6) = some c' ∧ (c'.servers 2).lastIncludedIndex = 1 ∧
        (c'.servers 2).lastApplied = 1 ∧ (c'.servers 2).logAt 2 = none := by
    decide +kernel
  obtain ⟨c, hc, hbase, happlied, hcommit, hat, c', hstep, hbase', happlied', hat'⟩ := h
  exact ⟨c, c', hc, by decide +kernel, hstep, hbase, hbase', happlied, happlied', hcommit, hat, hat'⟩

end DistSys
