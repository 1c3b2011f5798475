import DistSys.Raft.RefinementSteps
import DistSys.Raft.Slices

/-!
# Each step of the cluster is a step of the abstract protocol: logs and snapshots

A server that accepts entries or a snapshot takes over a segment of the log of the leader of that
term (`Sim.takeOver`, used by `Sim.accept` and `Sim.install`). Compaction (`Sim.compact`), the
delivery of commands (`Sim.commitChecker`) and restarts (`Sim.crash`) are no steps of the protocol.

`Sim.act` puts all cases together. It asks two things of an action: no server accepts a snapshot
older than its own (`Cluster.NoStaleSnapshot`), and the service's snapshots cover what they replace
(`Cluster.SnapshotsCover`). A step is such an action as long as no request is overwritten
(`Cluster.Intact.step_cases`).
-/

namespace DistSys

open Raft

variable {n : ℕ} {C : Type} [Inhabited C] {p : Proto (Fin n) (LogEntry C)}
  {covers : Data → ℕ → LogEntry C → Prop}

/-! ## What is asked of steps -/

/-- A snapshot that the server would accept is not older than its own. -/
def Raft.Rpc.Fresh (rf : Raft n C) : Rpc n C → Prop
  | .installSnapshot args none =>
    rf.currentTerm ≤ args.term → rf.lastIncludedIndex ≤ args.lastIncludedIndex
  | _ => True

/-- No server accepts a snapshot older than its own. -/
def Cluster.NoStaleSnapshot (c : Cluster n C) : Action n C → Prop
  | .deliver k => ∀ call ∈ c.calls[k]?, call.rpc.Fresh (c.servers call.server)
  | _ => True

/-- What a snapshot that the service passes to `Snapshot` covers: the entries of the log that it
replaces, and what the snapshot before it covered. -/
def Cluster.SnapshotsCover (covers : Data → ℕ → LogEntry C → Prop) (c : Cluster n C) :
    Action n C → Prop
  | .snapshot s index data =>
    (∀ i e, (c.servers s).lastIncludedIndex < i → i ≤ index → (c.servers s).logAt i = some e →
      covers data i e) ∧
    ∀ i e, 1 ≤ i → i ≤ (c.servers s).lastIncludedIndex → covers (c.servers s).snapShot i e →
      covers data i e
  | _ => True

/-- Nothing is asked of the service when a snapshot need not account for anything. -/
theorem Cluster.snapshotsCover_true (c : Cluster n C) (a : Action n C) :
    c.SnapshotsCover (fun _ _ _ => True) a := by
  cases a with
  | snapshot s index data => exact ⟨fun _ _ _ _ _ => trivial, fun _ _ _ _ _ => trivial⟩
  | _ => trivial

instance (rf : Raft n C) : (rpc : Rpc n C) → Decidable (rpc.Fresh rf)
  | .installSnapshot args none =>
    inferInstanceAs (Decidable
      (rf.currentTerm ≤ args.term → rf.lastIncludedIndex ≤ args.lastIncludedIndex))
  | .installSnapshot _ (some _) | .appendEntries _ _ | .requestVote _ _ | .preVote _ =>
    isTrue trivial

instance (c : Cluster n C) : (a : Action n C) → Decidable (c.NoStaleSnapshot a)
  | .deliver k =>
    inferInstanceAs (Decidable (∀ call ∈ c.calls[k]?, call.rpc.Fresh (c.servers call.server)))
  | .start _ _ | .msgComing _ | .timeout _ | .task _ | .encode _ | .receive _ | .lose _
  | .commitChecker _ | .sendSnapshot _ _ | .snapshot _ _ _ | .grow _ | .crash _ => isTrue trivial

namespace Sim

variable {c c' : Cluster n C} {g : History n} {a : Action n C}

/-! ## Taking over a segment of the leader's log -/

/-- The log of a server matches every segment of the log of a leader. -/
theorem logsMatch (h : Sim covers c g p) (s : Fin n) {T : ℤ} {q : Fin n} {M L : List (LogEntry C)}
    (hlead : p.lead T = some (q, M)) (hL : L <+: M) : LogsMatch (p.log s) L := by
  intro i hs hi hterm
  rw [termAt_of_isPrefix hL hi] at hterm
  rw [take_eq_take_of_isPrefix hL hi]
  exact h.inv.matching hlead hs (hi.trans hL.length_le) hterm

/-- What a server knows to be committed is in the log of every leader of its term or a later one. -/
theorem committed_lead (h : Sim covers c g p) (s : Fin n) {T : ℤ} {q : Fin n}
    {M : List (LogEntry C)} (hlead : p.lead T = some (q, M))
    (hT : (c.servers s).currentTerm ≤ T) : (p.log s).take (c.servers s).commitIndex <+: M :=
  h.inv.prefix_lead_of_committed (h.servers s).committed hT hlead

/-- Taking over a segment of the leader's log keeps what is committed. -/
theorem committed_adopt (h : Sim covers c g p) (s : Fin n) {T : ℤ} {q : Fin n}
    {M L : List (LogEntry C)} (hlead : p.lead T = some (q, M)) (hL : L <+: M)
    (hT : (c.servers s).currentTerm ≤ T) :
    (p.log s).take (c.servers s).commitIndex <+: adopt (p.log s) L := by
  have hLM := List.prefix_iff_eq_take.1 hL
  rw [hLM]
  exact isPrefix_adopt_of_isPrefix (List.take_prefix _ _) (h.committed_lead s hlead hT)

omit [Inhabited C] in
/-- Facts about an initial segment of the new log, given as a segment `P` of known length. -/
theorem commit_of_isPrefix {P A : List (LogEntry C)} {T : ℤ} (hP : p.Committed P T)
    (hA : P <+: A) : P.length ≤ A.length ∧ p.Committed (A.take P.length) T := by
  refine ⟨hA.length_le, ?_⟩
  rw [← List.prefix_iff_eq_take.1 hA]
  exact hP

/-- The server of call `k` takes over `L`, a segment of the log of the leader that made the call. -/
theorem takeOver (h : Sim covers c g p) (he : Elected c g) {k : ℕ} {call : Call n C}
    (hk : c.calls[k]? = some call) {T : ℤ} {M L : List (LogEntry C)}
    (hlead : p.lead T = some (call.caller, M)) (hL : L <+: M)
    (hT : (c.servers call.server).currentTerm ≤ T) {a : ℕ} (ha : a ≤ L.length) {b : Prop}
    (hb : b → a = 0 ∧ ¬ L <+: p.log call.server ∧ p.Committed L T) (rf : Raft n C)
    (hcalm : Calm (c.servers call.server) rf) (hterm : rf.currentTerm = T)
    (hvote : rf.votedFor = if T > (c.servers call.server).currentTerm then none
      else (c.servers call.server).votedFor)
    (hbacks : Backs (adopt (p.log call.server) L) b rf)
    (hcommit : rf.lastIncludedIndex ≤ rf.commitIndex ∧
      rf.commitIndex ≤ (adopt (p.log call.server) L).length ∧
      p.Committed ((adopt (p.log call.server) L).take rf.commitIndex) T)
    (hcovered : ∀ i e, i < rf.lastIncludedIndex → (adopt (p.log call.server) L)[i]? = some e →
      covers rf.snapShot (i + 1) e)
    (hout : ∀ msg ∈ rf.outgoing, Approved p msg)
    (hmatch : rf.matchIndex = (c.servers call.server).matchIndex) (rpc : Rpc n C)
    (hargs : ∀ args reply, rpc = .appendEntries args reply →
      ∃ reply', call.rpc = .appendEntries args reply')
    (hrpc : ∀ p', p.Le p' → a ≤ p'.acked call.server T →
      RpcSim p' covers call.caller call.server rpc) :
    ∃ p', p.Le p' ∧
      Sim covers (c.answerCall k call rf rpc) (g.observe (c.answerCall k call rf rpc)) p' := by
  set s := call.server with hserver
  have hs := h.servers s
  have hok := he.calls call (List.mem_of_getElem? hk)
  have hLM := List.prefix_iff_eq_take.1 hL
  have hraise : p.Le (p.raise s T) := Proto.Le.raise (hs.term ▸ hT)
  have hle := hraise.trans (Proto.Le.takeOver (p.raise s T) s T L a b)
  have hself : (p.raise s T).term s = T := by simp only [Proto.raise, Function.update_self]
  have hinv : ((p.raise s T).takeOver s T L a b).Inv := by
    have hinv := h.inv.raise (s := s) (hs.term ▸ hT)
    have hlead' : (p.raise s T).lead T = some (call.caller, M) := hlead
    refine hLM ▸ hinv.takeOver hlead' hok.ne hself hL.length_le ha fun hb' => ?_
    obtain ⟨ha0, hnot, hcom⟩ := hb hb'
    rcases hcom with hnil | ⟨T₃, N₃, L₃, hch, hT₃, hlen, hpre⟩
    · exact absurd (hnil ▸ List.nil_prefix) hnot
    · exact ⟨ha0, hLM ▸ hnot, T₃, N₃, L₃, hch, hT₃, hlen, hLM ▸ hpre⟩
  have hacked : a ≤ ((p.raise s T).takeOver s T L a b).acked s T := by
    rw [Proto.takeOver_acked_self]
    exact le_max_right _ _
  have hlog : ((p.raise s T).takeOver s T L a b).log s = adopt (p.log s) L :=
    Proto.takeOver_log_self
  have hblind : ((p.raise s T).takeOver s T L a b).blind s = b := Proto.takeOver_blind_self
  have hcalls : (c.answerCall k call rf rpc).calls = c.calls.set k { call with rpc := rpc } := rfl
  have hsend : ∀ r T, (c.answerCall k call rf rpc).Sending r T → c.Sending r T := fun r T hs =>
    hs.of_set hk hcalls rfl rfl rfl rfl id hargs
  -- a leader does not receive requests of its own term
  have hnl : rf.state ≠ .leader := fun hl => by
    obtain ⟨hl', hT'⟩ := hcalm.leader hl
    have hled := h.lead T
    rw [hlead, ← hterm, hT', he.led s hl'] at hled
    exact hok.ne (Option.some.inj hled).symm
  refine ⟨_, hle, h.update he rf hinv hle (fun r hr => ⟨Function.update_of_ne hr _ _,
    Function.update_of_ne hr _ _, Function.update_of_ne hr _ _, rfl⟩) (fun _ => rfl) (fun _ _ => rfl)
    h.own (fun hl => absurd hl hnl) ?_ rfl (fun t ht args hargs => ?_) (fun call' hcall' => ?_)
    (fun r T _ => hsend r T) (fun hl i => ?_) fun ev hev => Or.inl hev⟩
  · refine ⟨hself.trans hterm.symm, by rw [hlog, hblind]; exact hbacks, ?_, hcommit.1,
      hlog ▸ hcommit.2.1, ?_, hlog ▸ hcovered, fun msg hmsg => (hout msg hmsg).mono hle,
      fun sh _ hnone => ?_⟩
    · show (p.ballot s rf.currentTerm).map Prod.fst = _
      rw [hterm, hvote]
      split
      · rename_i hlt
        rw [hs.ballot_none h.inv hlt]
        rfl
      · rw [show T = (c.servers s).currentTerm by omega]
        exact hs.voted
    · rw [hlog, hterm]
      exact hcommit.2.2.mono hle le_rfl
    · have hnone : p.lead rf.currentTerm = none := hnone
      rw [hterm, hlead] at hnone
      cases hnone
  · obtain ⟨L', hL'⟩ := h.tasks t ht args hargs
    exact ⟨L', hL'.mono hle⟩
  · rcases List.mem_or_eq_of_mem_set hcall' with hcall' | rfl
    · exact (h.calls call' hcall').mono hle
    · exact hrpc _ hle hacked
  · rcases hl with hl | hl
    · exact absurd hl hnl
    · have hl := hsend _ _ hl
      have hge := sending_le he hl
      have hT' : rf.currentTerm = (c.servers s).currentTerm := by omega
      refine le_trans ?_ (hle.acked _ _)
      rw [hT'] at hl ⊢
      rw [hmatch]
      exact h.matched s (Or.inr hl) i

omit [Inhabited C] in
theorem getElem?_of_take_isPrefix {A B : List (LogEntry C)} {m i : ℕ} (h : A.take m <+: B)
    (hm : m ≤ A.length) (hi : i < m) : B[i]? = A[i]? := by
  obtain ⟨X, rfl⟩ := h
  rw [List.getElem?_append_left (by rw [List.length_take]; omega), List.getElem?_take_of_lt hi]

/-- A blind server rejects entries: its log is committed, so the leader knows the term that its
placeholder does not show. -/
theorem not_blind_of_prev (h : Sim covers c g p) {s : Fin n} {T : ℤ} {q : Fin n}
    {M : List (LogEntry C)} (hlead : p.lead T = some (q, M)) (hT : (c.servers s).currentTerm ≤ T)
    {v : ℕ} {prev : LogEntry C} (hat : (c.servers s).logAt v = some prev)
    (hprev : prev.term = termAt M v) : ¬ p.blind s := by
  intro hb
  have hs := h.servers s
  obtain ⟨rfl, hlt⟩ := hs.backs.shown_of_blind hb hat
  have hlen := hs.backs.length_of_blind hb
  have hci : (c.servers s).commitIndex = (p.log s).length :=
    le_antisymm hs.commit_le (hlen ▸ hs.commit_base)
  have hpre := h.committed_lead s hlead hT
  rw [hci, List.take_length] at hpre
  rw [hprev, termAt_of_isPrefix hpre hlen.ge] at hlt
  exact absurd hlt (lt_irrefl _)

theorem adoptTerm_votedFor (rf : Raft n C) (t : ℤ) :
    (rf.adoptTerm t).votedFor = if t > rf.currentTerm then none else rf.votedFor := by
  unfold adoptTerm
  split <;> rfl

/-- What `AppendEntries` leaves as it is. -/
theorem adoptTerm_frame (rf : Raft n C) (t : ℤ) :
    (rf.adoptTerm t).commitIndex = rf.commitIndex ∧ (rf.adoptTerm t).outgoing = rf.outgoing ∧
      (rf.adoptTerm t).matchIndex = rf.matchIndex ∧ (rf.adoptTerm t).checker = rf.checker ∧
      (rf.adoptTerm t).snapSenders = rf.snapSenders := by
  unfold adoptTerm
  split <;> exact ⟨rfl, rfl, rfl, rfl, rfl⟩

/-- A follower's `commitIndex` after it has accepted entries is within a committed segment of its
new log, whether it follows the leader or keeps its own. -/
theorem followedCommit_committed (h : Sim covers c g p) {s : Fin n} {T : ℤ} {q : Fin n}
    {M L : List (LogEntry C)} {args : AppendEntriesArgs n C} (hlead : p.lead T = some (q, M))
    (hLM : L <+: M) (hT : (c.servers s).currentTerm ≤ T) (hlc : args.leaderCommit ≤ L.length)
    (hcom : p.Committed (L.take args.leaderCommit) T) {rf : Raft n C}
    (hrf : rf.commitIndex = (c.servers s).commitIndex)
    (hbacks : Backs (adopt (p.log s) L) False { rf with log := rf.mergedLog args }) :
    (c.servers s).commitIndex ≤ rf.followedCommit args ∧
      rf.followedCommit args ≤ (adopt (p.log s) L).length ∧
      p.Committed ((adopt (p.log s) L).take (rf.followedCommit args)) T := by
  have hs := h.servers s
  have hlast : rf.virtualLogIdx ((rf.mergedLog args).length - 1) = (adopt (p.log s) L).length :=
    hbacks.lastLogIdx_eq
  have hL : L <+: adopt (p.log s) L := isPrefix_adopt _ _
  rw [followedCommit, hrf, hlast]
  split
  · rename_i hlt
    have hpre := (List.take_prefix args.leaderCommit L).trans hL
    have hlen : (L.take args.leaderCommit).length = args.leaderCommit := by
      rw [List.length_take, Nat.min_eq_left hlc]
    rw [Nat.min_eq_left (hlc.trans hL.length_le)]
    have hfacts := commit_of_isPrefix hcom hpre
    rw [hlen] at hfacts
    exact ⟨hlt.le, hfacts⟩
  · have hlen : ((p.log s).take (c.servers s).commitIndex).length = (c.servers s).commitIndex := by
      rw [List.length_take, Nat.min_eq_left hs.commit_le]
    have hfacts := commit_of_isPrefix (hs.committed.mono (Proto.Le.refl p) hT)
      (h.committed_adopt s hlead hLM hT)
    rw [hlen] at hfacts
    exact ⟨le_rfl, hfacts⟩

/-- What a server's log and `commitIndex` become when it accepts the request of call `k`. -/
theorem merged (h : Sim covers c g p) {k : ℕ} {call : Call n C} (hk : c.calls[k]? = some call)
    {args : AppendEntriesArgs n C} (hrpc : call.rpc = .appendEntries args none)
    (hT : (c.servers call.server).currentTerm ≤ args.term) {prev : LogEntry C}
    (hat : (c.servers call.server).logAt args.prevLogIndex = some prev)
    (hprev : prev.term = args.prevLogTerm) {rf : Raft n C}
    (hrf : rf = (c.servers call.server).adoptTerm args.term) :
    ∃ M L, p.lead args.term = some (call.caller, M) ∧ L <+: M ∧ AppendSim p call.caller args L ∧
      Backs (adopt (p.log call.server) L) False { rf with log := rf.mergedLog args } ∧
      (c.servers call.server).commitIndex ≤ rf.followedCommit args ∧
      rf.followedCommit args ≤ (adopt (p.log call.server) L).length ∧
      p.Committed ((adopt (p.log call.server) L).take (rf.followedCommit args)) args.term := by
  have hcall := h.calls call (List.mem_of_getElem? hk)
  rw [hrpc] at hcall
  obtain ⟨⟨L, hL⟩, -⟩ := hcall
  obtain ⟨M, hM, hLM⟩ := hL.lead
  have hlen : args.prevLogIndex ≤ L.length := by rw [hL.length]; omega
  have hterm : prev.term = termAt L args.prevLogIndex := hprev.trans hL.prevLogTerm
  have hnb := h.not_blind_of_prev hM hT hat (hterm.trans (termAt_of_isPrefix hLM hlen))
  have hsame := sameLog_adoptTerm (c.servers call.server) args.term
  have hcommit := (adoptTerm_frame (c.servers call.server) args.term).1
  rw [← hrf] at hsame hcommit
  have hat' : rf.logAt args.prevLogIndex = some prev := by
    rwa [logAt, realLogIdx, hsame.log, hsame.lastIncludedIndex]
  have hbacks := ((h.servers _).backs.of_sameLog hsame).merged hnb (h.logsMatch _ hM hLM) hat' hterm
    hlen hL.entries
  exact ⟨M, L, hM, hLM, hL, hbacks,
    h.followedCommit_committed hM hLM hT hL.commit_le hL.committed hcommit hbacks⟩

/-- `AppendEntries` accepts. -/
theorem accept (h : Sim covers c g p) (he : Elected c g) {k : ℕ} {call : Call n C}
    (hk : c.calls[k]? = some call) {args : AppendEntriesArgs n C}
    (hrpc : call.rpc = .appendEntries args none)
    (hT : (c.servers call.server).currentTerm ≤ args.term) {prev : LogEntry C}
    (hat : (c.servers call.server).logAt args.prevLogIndex = some prev)
    (hprev : prev.term = args.prevLogTerm) {rf : Raft n C}
    (hrf : rf = (((c.servers call.server).adoptTerm args.term).persist).acceptEntries args)
    (hcalm : Calm (c.servers call.server) rf) (reply : AppendEntriesReply) {c' : Cluster n C}
    (hc' : c' = c.answerCall k call rf (.appendEntries args (some reply))) :
    ∃ p', p.Le p' ∧ Sim covers c' (g.observe c') p' := by
  have hs := h.servers call.server
  obtain ⟨M, L, hM, hLM, hL, hbacks, hge, hfollowed⟩ := h.merged hk hrpc hT hat hprev rfl
  have hsame := sameLog_adoptTerm (c.servers call.server) args.term
  obtain ⟨-, hout, hmatch, -, -⟩ := adoptTerm_frame (c.servers call.server) args.term
  have hvoted := adoptTerm_votedFor (c.servers call.server) args.term
  have hterm := adoptTerm_term hT
  obtain ⟨ch, hch, hw⟩ := acceptEntries_eq ((c.servers call.server).adoptTerm args.term) args
  rw [hch] at hrf
  generalize (c.servers call.server).adoptTerm args.term = rf₁ at *
  have hbase : rf₁.lastIncludedIndex ≤ (c.servers call.server).commitIndex :=
    hsame.lastIncludedIndex ▸ hs.commit_base
  subst hrf hc'
  refine h.takeOver he hk hM hLM hT le_rfl (b := False) nofun _ hcalm hterm hvoted
    (hbacks.of_sameLog ⟨rfl, rfl, rfl, rfl⟩) ⟨hbase.trans hge, hfollowed⟩ (fun i e hi he => ?_)
    (fun msg hmsg => ?_) hmatch _ (fun args' reply' h' => ?_) fun p' hle ha =>
      ⟨⟨L, hL.mono hle⟩, fun r _ _ => hL.length ▸ ha⟩
  · have hi : i < rf₁.lastIncludedIndex := hi
    rw [getElem?_of_take_isPrefix (h.committed_adopt _ hM hLM hT) hs.commit_le (by omega)] at he
    rw [hsame.lastIncludedIndex] at hi
    show covers rf₁.snapShot (i + 1) e
    rw [hsame.snapShot]
    exact hs.covered i e hi he
  · have hwoken : Raft.outgoing { rf₁ with checker := ch } = rf₁.outgoing := outgoing_of_woken hw rfl
    refine hs.outgoing msg ?_
    rw [← hout, ← hwoken]
    exact hmsg
  · cases h'
    exact ⟨none, hrpc⟩

/-! ## Snapshots -/

/-- What a server's log becomes when it accepts the snapshot of call `k`, which is not older than
its own. -/
theorem installed (h : Sim covers c g p) {k : ℕ} {call : Call n C} (hk : c.calls[k]? = some call)
    {args : InstallSnapshotArgs n C} (hrpc : call.rpc = .installSnapshot args none)
    (hT : (c.servers call.server).currentTerm ≤ args.term)
    (hfresh : (c.servers call.server).lastIncludedIndex ≤ args.lastIncludedIndex) :
    ∃ M L, p.lead args.term = some (call.caller, M) ∧ L <+: M ∧
      InstallSim p covers call.caller args L ∧ ∃ b : Prop,
        Backs (adopt (p.log call.server) L) b ((c.servers call.server).install args) ∧
        (b → ¬ L <+: p.log call.server) := by
  have hs := h.servers call.server
  have hcall := h.calls call (List.mem_of_getElem? hk)
  rw [hrpc] at hcall
  obtain ⟨L, hL⟩ := hcall
  obtain ⟨M, hM, hLM⟩ := hL.lead
  have hbase := hs.commit_base
  have hcom := h.committed_lead call.server hM hT
  have hlenA : ((p.log call.server).take (c.servers call.server).commitIndex).length =
      (c.servers call.server).commitIndex := by
    rw [List.length_take, Nat.min_eq_left hs.commit_le]
  have hkeep : (p.log call.server).take (c.servers call.server).lastIncludedIndex =
      L.take (c.servers call.server).lastIncludedIndex := by
    rw [take_eq_take_of_isPrefix hLM (hfresh.trans hL.length.ge),
      ← take_eq_take_of_isPrefix hcom (hbase.trans hlenA.ge), List.take_take, Nat.min_eq_left hbase]
  have hord : termAt L (c.servers call.server).lastIncludedIndex ≤
      termAt L args.lastIncludedIndex := by
    rw [termAt_of_isPrefix hLM (hfresh.trans hL.length.ge), termAt_of_isPrefix hLM hL.length.ge]
    exact h.inv.lead_ordered hM hfresh (hL.length ▸ hLM.length_le)
  exact ⟨M, L, hM, hLM, hL,
    hs.backs.installed (h.logsMatch _ hM hLM) hfresh hL.length hL.term hkeep hord⟩

/-- `InstallSnapshot` accepts a snapshot that is not older than the server's own. -/
theorem install (h : Sim covers c g p) (he : Elected c g) {k : ℕ} {call : Call n C}
    (hk : c.calls[k]? = some call) {args : InstallSnapshotArgs n C}
    (hrpc : call.rpc = .installSnapshot args none)
    (hT : (c.servers call.server).currentTerm ≤ args.term)
    (hfresh : (c.servers call.server).lastIncludedIndex ≤ args.lastIncludedIndex)
    (hcalm : Calm (c.servers call.server) ((c.servers call.server).install args))
    (reply : InstallSnapshotReply) {c' : Cluster n C}
    (hc' : c' = c.answerCall k call ((c.servers call.server).install args)
      (.installSnapshot args (some reply))) :
    ∃ p', p.Le p' ∧ Sim covers c' (g.observe c') p' := by
  have hs := h.servers call.server
  obtain ⟨M, L, hM, hLM, hL, b, hbacks, hnot⟩ := h.installed hk hrpc hT hfresh
  have hlenA : ((p.log call.server).take (c.servers call.server).commitIndex).length =
      (c.servers call.server).commitIndex := by
    rw [List.length_take, Nat.min_eq_left hs.commit_le]
  have hpre := isPrefix_adopt (p.log call.server) L
  have hcommit : max (c.servers call.server).commitIndex args.lastIncludedIndex ≤
        (adopt (p.log call.server) L).length ∧
      p.Committed ((adopt (p.log call.server) L).take
        (max (c.servers call.server).commitIndex args.lastIncludedIndex)) args.term := by
    rcases Nat.le_total (c.servers call.server).commitIndex args.lastIncludedIndex with hle | hle
    · have hfacts := commit_of_isPrefix hL.committed hpre
      rwa [hL.length, ← Nat.max_eq_right hle] at hfacts
    · have hfacts := commit_of_isPrefix (hs.committed.mono (Proto.Le.refl p) hT)
        (h.committed_adopt _ hM hLM hT)
      rwa [hlenA, ← Nat.max_eq_left hle] at hfacts
  subst hc'
  refine h.takeOver he hk hM hLM hT (Nat.zero_le _) (fun hb => ⟨rfl, hnot hb, hL.committed⟩) _
    hcalm rfl rfl hbacks ⟨le_max_right _ _, hcommit⟩ (fun i e hi he => ?_) (fun msg hmsg => ?_) rfl _
    nofun fun p' hle _ => ⟨L, hL.mono hle⟩
  · have hi : i < args.lastIncludedIndex := hi
    obtain ⟨X, hX⟩ := hpre
    rw [← hX, List.getElem?_append_left (by rw [hL.length]; exact hi)] at he
    exact hL.covered i e he
  · have hmsg : msg ∈ (c.servers call.server).checker.buffered ++
        ((c.servers call.server).snapSenders ++ [snapshotMsg args]) := hmsg
    rw [← List.append_assoc, List.mem_append, List.mem_singleton] at hmsg
    rcases hmsg with hmsg | rfl
    · exact hs.outgoing msg hmsg
    · exact nofun

/-! ## The service's side -/

/-- The message that hands entry `e` at index `i` to the service. -/
def commandMsg (i : ℕ) (e : LogEntry C) : ApplyMsg C :=
  { commandValid := true, command := e.command, commandIndex := i, commandTerm := e.term }

theorem mem_collect {rf : Raft n C} {fuel i : ℕ} {msgBuf : List (ApplyMsg C)}
    (h : rf.collect fuel i = some msgBuf) {msg : ApplyMsg C} (hmsg : msg ∈ msgBuf) :
    ∃ j e, rf.lastIncludedIndex < j ∧ j ≤ i + fuel ∧ rf.logAt j = some e ∧
      msg = commandMsg j e := by
  induction fuel generalizing i msgBuf with
  | zero =>
    cases h
    cases hmsg
  | succ fuel ih =>
    rw [collect] at h
    split at h
    · obtain ⟨j, e, hj, hle, hrest⟩ := ih h hmsg
      exact ⟨j, e, hj, by omega, hrest⟩
    · rename_i hbase
      split at h
      · cases h
        cases hmsg
      · obtain ⟨e, he, h⟩ := Option.bind_eq_some_iff.1 h
        obtain ⟨msgBuf', hbuf, h⟩ := Option.bind_eq_some_iff.1 h
        cases h
        rcases List.mem_cons.1 hmsg with rfl | hmsg
        · exact ⟨i + 1, e, by omega, by omega, he, rfl⟩
        · obtain ⟨j, e', hj, hle, hrest⟩ := ih hbuf hmsg
          exact ⟨j, e', hj, by omega, hrest⟩

/-- What `CommitChecker` sends was buffered, and what it buffers are entries up to `commitIndex`. -/
theorem commitChecker_outgoing {rf rf' : Raft n C} {msg : Option (ApplyMsg C)}
    (h : rf.commitChecker = some (rf', msg)) :
    (∀ m ∈ rf'.outgoing, m ∈ rf.outgoing ∨ ∃ j e, rf.lastIncludedIndex < j ∧
      j ≤ rf.commitIndex ∧ rf.logAt j = some e ∧ m = commandMsg j e) ∧
    ∀ m, msg = some m → m ∈ rf.outgoing := by
  unfold commitChecker at h
  split at h
  · rename_i hchk
    cases h
    refine ⟨fun m hm => Or.inl ?_, nofun⟩
    rw [outgoing, hchk]
    exact hm
  · cases h
  · rename_i hchk
    obtain ⟨msgBuf, hbuf, h⟩ := Option.bind_eq_some_iff.1 h
    cases h
    refine ⟨fun m hm => ?_, nofun⟩
    rcases List.mem_append.1 hm with hm | hm
    · rw [fillBuffer] at hbuf
      split at hbuf
      · cases hbuf
      · obtain ⟨j, e, hj, hle, hrest⟩ := mem_collect hbuf hm
        exact Or.inr ⟨j, e, hj, by omega, hrest⟩
    · exact Or.inl (List.mem_append_right _ hm)
  · rename_i hchk
    cases h
    refine ⟨fun m hm => Or.inl ?_, nofun⟩
    rw [outgoing, hchk]
    exact hm
  · rename_i msg msgBuf hchk
    cases h
    rw [outgoing, outgoing, hchk]
    refine ⟨fun m hm => Or.inl hm, fun m hm => ?_⟩
    cases hm
    exact List.mem_cons_self
  · rename_i msg msgBuf hchk
    have hsub : ∀ m ∈ msgBuf ++ rf.snapSenders, m ∈ rf.outgoing := fun m hm => by
      rw [outgoing, hchk]
      exact List.mem_cons_of_mem _ hm
    simp only at h
    split at h <;> cases h <;> exact ⟨fun m hm => Or.inl (hsub m hm), nofun⟩

/-- An entry that a server knows to be committed may be handed to its service. -/
theorem approved_commandMsg (h : Sim covers c g p) {s : Fin n} {j : ℕ} {e : LogEntry C}
    (hj : (c.servers s).lastIncludedIndex < j) (hle : j ≤ (c.servers s).commitIndex)
    (he : (c.servers s).logAt j = some e) : Approved p (commandMsg j e) := by
  intro _
  have hs := h.servers s
  obtain ⟨i, rfl⟩ : ∃ i, j = i + 1 := ⟨j - 1, by omega⟩
  rw [hs.backs.logAt_eq (by omega)] at he
  exact ⟨_, i, rfl, _, hs.committed, by rw [List.getElem?_take_of_lt (by omega)]; exact he⟩

/-- `CommitChecker` takes a step. -/
theorem commitChecker (h : Sim covers c g p) (he : Elected c g) {s : Fin n} {rf : Raft n C}
    {msg : Option (ApplyMsg C)} (hrf : (c.servers s).commitChecker = some (rf, msg))
    {c' : Cluster n C}
    (hc' : c' = (c.set s rf).emit (msg.toList.map fun msg => .apply s (c.epoch s) msg)) :
    ∃ p', p.Le p' ∧ Sim covers c' (g.observe c') p' := by
  obtain ⟨hbuf, hsent⟩ := commitChecker_outgoing hrf
  obtain ⟨ch, applied, hframe⟩ := commitChecker_frame hrf
  have hq : Quiet (c.servers s) rf := by
    rw [hframe]
    exact Quiet.of_same ⟨rfl, rfl, rfl, rfl⟩ rfl rfl id
  have hcommit : rf.commitIndex = (c.servers s).commitIndex := by rw [hframe]
  have hmatch : rf.matchIndex = (c.servers s).matchIndex := by rw [hframe]
  subst hc'
  refine ⟨_, Proto.Le.raise ((h.servers s).term ▸ hq.term_le), h.quiet he hq
    (h.commit_same hq hcommit) (fun m hm => ?_) rfl h.tasks h.calls (fun _ _ _ hs => hs)
    (fun hl => h.matched_same he hq hmatch id hl) fun ev hev => ?_⟩
  · rcases hbuf m hm with hm | ⟨j, e, hj, hle, hat, rfl⟩
    · exact (h.servers s).outgoing m hm
    · exact h.approved_commandMsg hj hle hat
  · refine (List.mem_append.1 hev).imp_right fun hev => ?_
    obtain ⟨m, hm, rfl⟩ := List.mem_map.1 hev
    exact (h.servers s).outgoing m (hsent m (Option.mem_toList.1 hm))

/-- A snapshot that was installed is handed to the service. -/
theorem sendSnapshot (h : Sim covers c g p) (he : Elected c g) {s : Fin n} {k : ℕ}
    {msg : ApplyMsg C} (hmsg : (c.servers s).snapSenders[k]? = some msg) {c' : Cluster n C}
    (hc' : c' = (c.set s { c.servers s with
      snapSenders := (c.servers s).snapSenders.eraseIdx k }).emit [.apply s (c.epoch s) msg]) :
    ∃ p', p.Le p' ∧ Sim covers c' (g.observe c') p' := by
  have hs := h.servers s
  have hmem : msg ∈ (c.servers s).outgoing :=
    List.mem_append_right _ (List.mem_of_getElem? hmsg)
  have hq : Quiet (c.servers s) { c.servers s with
      snapSenders := (c.servers s).snapSenders.eraseIdx k } :=
    Quiet.of_same ⟨rfl, rfl, rfl, rfl⟩ rfl rfl id
  subst hc'
  refine ⟨_, Proto.Le.raise (hs.term ▸ hq.term_le), h.quiet he hq (h.commit_same hq rfl)
    (fun m hm => ?_) rfl h.tasks h.calls (fun _ _ _ hs => hs)
    (fun hl => h.matched_same he hq rfl id hl) fun ev hev => ?_⟩
  · refine hs.outgoing m ?_
    rcases List.mem_append.1 hm with hm | hm
    · exact List.mem_append_left _ hm
    · exact List.mem_append_right _ (List.mem_of_mem_eraseIdx hm)
  · refine (List.mem_append.1 hev).imp_right fun hev => ?_
    rw [List.mem_singleton.1 hev]
    exact hs.outgoing msg hmem

/-- A server starts again with its log, at the commit index of its snapshot. -/
theorem crash (h : Sim covers c g p) (he : Elected c g) (hmirror : c.Mirrored) (s : Fin n) :
    ∃ p', p.Le p' ∧ Sim covers (c.restart s) (g.observe (c.restart s)) p' := by
  have hs := h.servers s
  have hlog := (he.sound.durable s).sameLog_make
  have hsteady := (he.sound.durable s).make_eq.1
  rw [he.sound.me s] at hlog hsteady
  set rf := Raft.make s (c.servers s).persister with hrf
  have hterm : rf.currentTerm = (c.servers s).currentTerm := congrArg RaftState.currentTerm hsteady
  have hvote : rf.votedFor = (c.servers s).votedFor := congrArg RaftState.votedFor hsteady
  have hcommit : rf.commitIndex = (c.servers s).lastIncludedIndex := by
    rw [hrf, make_commitIndex, ← hrf, hlog.lastIncludedIndex]
  have hnl : rf.state ≠ .leader := by
    rw [hrf, make_state]
    exact nofun
  have hout : rf.outgoing = [] := by
    rw [outgoing, hrf, make_checker, make_snapSenders]
    rfl
  have hq : Quiet (c.servers s) rf := Quiet.of_same hlog hterm hvote fun hl => absurd hl hnl
  -- the calls of the old incarnation are no longer waited for
  have hsend : ∀ {r T}, (c.restart s).Sending r T → c.Sending r T ∧ r ≠ s := by
    have hold : ∀ {r epoch}, epoch = (c.restart s).epoch r → epoch ≤ c.epoch r →
        epoch = c.epoch r ∧ r ≠ s := by
      intro r epoch hep hle
      by_cases hr : r = s
      · rw [hr] at hep hle
        simp only [Cluster.restart, Cluster.emit, Function.update_self] at hep
        omega
      · simp only [Cluster.restart, Cluster.emit, Function.update_of_ne hr] at hep
        exact ⟨hep, hr⟩
    rintro r T (⟨call, hcall, hw, rfl, hep, hrest⟩ | ⟨t, ht, rfl, hep, hrest⟩)
    · obtain ⟨hep, hr⟩ := hold hep (he.calls call hcall).epoch_le
      exact ⟨Or.inl ⟨call, hcall, hw, rfl, hep, hrest⟩, hr⟩
    · obtain ⟨hep, hr⟩ := hold hep (hmirror.epoch_le t ht)
      exact ⟨Or.inr ⟨t, ht, rfl, hep, hrest⟩, hr⟩
  refine ⟨_, Proto.Le.raise (hs.term ▸ hq.term_le), h.quiet he hq ⟨?_, ?_, ?_⟩ (fun m hm => ?_) rfl
    h.tasks h.calls (fun r T _ hs => (hsend hs).1) (fun hl => ?_) fun ev hev => ?_⟩
  · rw [hcommit, hlog.lastIncludedIndex]
  · rw [hcommit]
    exact hs.backs.base_le
  · rw [hcommit, hterm]
    exact hs.committed.of_isPrefix (List.take_prefix_take_left hs.commit_base)
  · rw [hout] at hm
    cases hm
  · rcases hl with hl | hl
    · exact absurd hl hnl
    · exact absurd rfl (hsend hl).2
  · refine (List.mem_append.1 hev).imp_right fun hev => ?_
    rw [List.mem_singleton.1 hev]
    trivial

/-- The service compacts the log. -/
theorem compact (h : Sim covers c g p) (he : Elected c g) {s : Fin n} {index : ℕ} {data : Data}
    (hcov : c.SnapshotsCover covers (.snapshot s index data)) {rf : Raft n C}
    (hrf : (c.servers s).snapshot index data = some rf) :
    Sim covers (c.set s rf) (g.observe (c.set s rf)) p := by
  have hs := h.servers s
  rcases snapshot_cases hrf with rfl | ⟨hlt, hle, e, hat, rfl⟩
  · rw [Cluster.set_self]
    exact h.idle he rfl h.tasks h.calls (fun r T hs => Or.inr hs) rfl
  · obtain ⟨hbacks, hshown⟩ := hs.backs.compact hlt hat data
    refine h.update he ((c.servers s).compact index e.term data) h.inv (Proto.Le.refl p)
      (fun _ _ => ⟨rfl, rfl, rfl, rfl⟩) (fun _ => rfl) (fun _ _ => rfl) h.own
      (fun hl => ⟨hl, rfl⟩) ⟨hs.term, hbacks, hs.voted, hle, hs.commit_le, hs.committed,
        fun i e' hi he' => ?_, hs.outgoing, fun sh hsh hnone => ?_⟩ rfl h.tasks h.calls
      (fun _ _ _ hs => hs) (h.matched s) fun ev hev => Or.inl hev
    · have hi : i < index := hi
      by_cases hib : i < (c.servers s).lastIncludedIndex
      · exact hcov.2 _ _ (by omega) (by omega) (hs.covered i e' hib he')
      · refine hcov.1 _ _ (by omega) (by omega) ?_
        rw [hs.backs.logAt_eq (by omega)]
        exact he'
    · rw [hshown]
      exact hs.shown sh hsh hnone

/-! ## All steps -/

/-- A request is delivered. -/
theorem deliver (h : Sim covers c g p) (he : Elected c g) {k : ℕ} {call : Call n C}
    (hk : c.calls[k]? = some call) (hfresh : call.rpc.Fresh (c.servers call.server))
    {rf : Raft n C} {rpc : Rpc n C}
    (hhandle : call.rpc.handle (c.servers call.server) = some (rf, rpc)) :
    ∃ p', p.Le p' ∧ Sim covers (c.answerCall k call rf rpc)
      (g.observe (c.answerCall k call rf rpc)) p' := by
  have hcall := h.calls call (List.mem_of_getElem? hk)
  have hcalm := Rpc.calm_handle hhandle
  have hrefl : Quiet (c.servers call.server) (c.servers call.server) :=
    Quiet.of_same (SameLog.refl _) rfl rfl id
  rcases Rpc.handle_cases hhandle with ⟨args, reply, hrpc, rfl, hr⟩ |
    ⟨args, reply, hrpc, rfl, hr⟩ | ⟨hrpc, rfl, rfl⟩ | ⟨args, reply, hrpc, rfl, hr⟩
  · -- a rejected request acknowledges nothing
    have hreject : reply.success = false →
        RpcSim p covers call.caller call.server (.appendEntries args (some reply)) := fun hno => by
      rw [hrpc] at hcall
      refine ⟨hcall.1, fun r hr' hsucc => ?_⟩
      cases hr'
      rw [hno] at hsucc
      cases hsucc
    have hargs : ∀ args' reply', Rpc.appendEntries args (some reply) = .appendEntries args' reply' →
        ∃ reply'', call.rpc = .appendEntries args' reply'' := fun args' reply' h' => by
      cases h'
      exact ⟨none, hrpc⟩
    rcases appendEntries_cases hr with ⟨rfl, hno⟩ | ⟨-, hno, rfl⟩ |
      ⟨hle, -, ⟨prev, hat, hprev⟩, hrf⟩
    · exact h.deliver_quiet he hk hrefl ⟨rfl, rfl, rfl⟩ hargs (hreject hno)
    · obtain ⟨hcommit, hout, hmatch, -, -⟩ :=
        adoptTerm_frame (c.servers call.server) args.term
      exact h.deliver_quiet he hk (quiet_adoptTerm _ _) ⟨hcommit, hout, hmatch⟩ hargs (hreject hno)
    · exact h.accept he hk hrpc hle hat hprev hrf hcalm reply rfl
  · rw [hrpc] at hcall
    rcases requestVote_cases hr with ⟨rfl, -⟩ | ⟨hlt, rfl, -⟩ | ⟨hle, hvote, hup, rfl, -⟩
    · exact h.deliver_quiet he hk hrefl ⟨rfl, rfl, rfl⟩ nofun hcall
    · exact h.deliver_quiet he hk (quiet_follow hlt) ⟨rfl, rfl, rfl⟩ nofun hcall
    · exact h.grant he hk hrpc hle hvote hup reply rfl
  · exact h.deliver_quiet he hk hrefl ⟨rfl, rfl, rfl⟩ nofun trivial
  · rw [hrpc] at hcall hfresh
    have hcases := installSnapshot_cases (c.servers call.server) args
    rw [hr] at hcases
    rcases hcases with rfl | ⟨hle, rfl⟩
    · exact h.deliver_quiet he hk hrefl ⟨rfl, rfl, rfl⟩ nofun hcall
    · exact h.install he hk hrpc hle (hfresh hle) hcalm reply rfl

/-- A reply is received. -/
theorem receive (h : Sim covers c g p) (he : Elected c g) {k : ℕ} {call : Call n C}
    (hk : c.calls[k]? = some call) (hw : call.waiting = true)
    (hep : call.epoch = c.epoch call.caller) {rf : Raft n C}
    (hfinish : call.rpc.finish (c.servers call.caller) call.server = some rf)
    (he' : Elected (c.finishCall k call rf) (g.observe (c.finishCall k call rf))) :
    ∃ p', p.Le p' ∧ Sim covers (c.finishCall k call rf) (g.observe (c.finishCall k call rf)) p' := by
  -- most replies change nothing that the protocol knows of
  have hsame : ∀ {rf : Raft n C}, Quiet (c.servers call.caller) rf →
      rf.commitIndex = (c.servers call.caller).commitIndex →
      rf.outgoing = (c.servers call.caller).outgoing →
      rf.matchIndex = (c.servers call.caller).matchIndex →
      ∃ p', p.Le p' ∧
        Sim covers (c.finishCall k call rf) (g.observe (c.finishCall k call rf)) p' :=
    fun hq hcommit hout hmatch => h.receive_quiet he hk hq (h.commit_same hq hcommit) hout
      fun hl => h.matched_same he hq hmatch id hl
  rcases Rpc.finish_cases hfinish with ⟨args, reply, hrpc, hr⟩ | ⟨args, reply, hrpc, rfl⟩ |
    ⟨reply, -, rfl⟩ | ⟨args, reply, -, rfl⟩
  · rcases sendAppendEntries_cases hr with ⟨next, rfl⟩ | ⟨hlt, rfl⟩ | ⟨hsucc, hle, hadv⟩
    · exact hsame (Quiet.of_same ⟨rfl, rfl, rfl, rfl⟩ rfl rfl id) rfl rfl rfl
    · refine hsame ⟨⟨rfl, rfl, rfl, rfl⟩, hlt.le, fun heq => absurd heq hlt.ne', fun _ => rfl, nofun⟩
        rfl rfl rfl
    · exact h.commit he hk hw hep hrpc hsucc hle hadv
  · rcases sendRequestVote_cases (c.servers call.caller) args reply with hr | ⟨-, -, hr⟩ |
      ⟨hterm, hgranted, hcount, hr⟩
    · rw [hr]
      exact hsame (Quiet.of_same (SameLog.refl _) rfl rfl id) rfl rfl rfl
    · rw [hr]
      exact hsame (Quiet.of_same ⟨rfl, rfl, rfl, rfl⟩ rfl rfl nofun) rfl rfl rfl
    · rw [hr] at he' ⊢
      by_cases hmaj : n / 2 < (c.servers call.caller).voteCount + 1
      · obtain ⟨hfirst, X, hX, hvotes⟩ :=
          he.win (he.open_vote hk hw hep hrpc hterm hgranted) hcount hmaj
        exact h.win he hk rfl he' hmaj hfirst hX hvotes
      · rw [countVote, if_neg hmaj]
        exact hsame (Quiet.of_same ⟨rfl, rfl, rfl, rfl⟩ rfl rfl id) rfl rfl rfl
  · rcases sendPreVote_cases (c.servers call.caller) reply with hr | ⟨-, r, hr', hr⟩
    · rw [hr]
      exact hsame (Quiet.of_same (SameLog.refl _) rfl rfl id) rfl rfl rfl
    · rw [hr]
      exact hsame (Quiet.of_same ⟨rfl, rfl, rfl, rfl⟩ rfl rfl fun hl => absurd hl hr') rfl rfl rfl
  · rcases handleInstallSnapshot_cases (c.servers call.caller) call.server reply with
      ⟨next, hr⟩ | ⟨hlt, hr⟩
    · rw [hr]
      exact hsame (Quiet.of_same ⟨rfl, rfl, rfl, rfl⟩ rfl rfl id) rfl rfl rfl
    · rw [hr]
      exact hsame (quiet_follow hlt) rfl rfl rfl

/-- **The cluster refines the protocol.** -/
theorem act (h : Sim covers c g p) (he : Elected c g) (hmirror : c.Mirrored)
    (hstale : c.NoStaleSnapshot a) (hcov : c.SnapshotsCover covers a)
    (hstep : Cluster.Step c a c') :
    ∃ p', p.Le p' ∧ Sim covers c' (g.observe c') p' := by
  have he' := he.act hstep
  have hsame : ∀ {c' : Cluster n C}, Sim covers c' (g.observe c') p →
      ∃ p', p.Le p' ∧ Sim covers c' (g.observe c') p' := fun h' => ⟨p, Proto.Le.refl p, h'⟩
  cases hstep with
  | idle => exact hsame (h.idle he rfl h.tasks h.calls (fun r T hs => Or.inr hs) rfl)
  | start s command hl => exact h.start he hl command rfl trivial
  | spawn a s gs hl hgs => exact hsame (h.spawn he hl hgs)
  | preVote s hl =>
    have hq : Quiet (c.servers s) (c.servers s).beginPreVote :=
      Quiet.of_same ⟨rfl, rfl, rfl, rfl⟩ rfl rfl nofun
    refine ⟨_, Proto.Le.raise ((h.servers s).term ▸ hq.term_le), h.quiet_same he hq rfl rfl rfl rfl
      h.tasks (fun call hcall => ?_) (fun r T hs => ?_) fun ev hev => Or.inl hev⟩
    · rcases List.mem_append.1 hcall with hcall | hcall
      · exact h.calls call hcall
      · obtain ⟨i, -, rfl⟩ := List.mem_map.1 hcall
        trivial
    · have hcalls : ((c.set s (c.servers s).beginPreVote).call s (c.servers s).otherPeers
          (.preVote none)).calls = c.calls ++ (c.servers s).otherPeers.map fun i =>
            { caller := s, epoch := c.epoch s, server := i, rpc := .preVote none } := rfl
      refine hs.of_append hcalls rfl rfl fun call hcall args reply => ?_
      obtain ⟨i, -, rfl⟩ := List.mem_map.1 hcall
      exact nofun
  | election s rf args hcand hrf =>
    obtain ⟨rfl, last, hlast, hargs⟩ := beginElection_eq_some hrf
    exact h.campaign he hcand hlast hargs rfl
  | dropTask k =>
    refine hsame (h.idle he rfl (fun t ht => h.tasks t (List.mem_of_mem_eraseIdx ht)) h.calls
      (fun r T hs => Or.inr (hs.imp_right fun ⟨t, ht, hrest⟩ => ?_)) rfl)
    exact ⟨t, List.mem_of_mem_eraseIdx ht, hrest⟩
  | runTask k t rpc ht hep hl hrpc => exact hsame (h.runTask he ht hep hl hrpc rfl)
  | encode k t j ht hj => exact hsame (h.encode he ht rfl)
  | deliver k call rf rpc hk hhandle => exact h.deliver he hk (hstale call hk) hhandle
  | receive k call rf hk hw hep hfinish => exact h.receive he hk hw hep hfinish he'
  | lose k call hk hep => exact hsame (h.lose he hk)
  | commitChecker s rf msg hrf => exact h.commitChecker he hrf rfl
  | sendSnapshot s k msg hmsg => exact h.sendSnapshot he hmsg rfl
  | snapshot s index data rf hrf => exact hsame (h.compact he hcov hrf)
  | grow s =>
    have hq : Quiet (c.servers s) { c.servers s with array := (c.servers s).array + 1 } :=
      Quiet.of_same ⟨rfl, rfl, rfl, rfl⟩ rfl rfl id
    exact ⟨_, Proto.Le.raise ((h.servers s).term ▸ hq.term_le), h.quiet_same he hq rfl rfl rfl rfl
      h.tasks h.calls (fun r T hs => hs) fun ev hev => Or.inl hev⟩
  | crash s => exact h.crash he hmirror s

end Sim

end DistSys
