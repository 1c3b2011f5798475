import DistSys.Lib.ConsensusSafety
import DistSys.Raft.Election
import DistSys.Raft.FullLog

/-!
# The cluster refines log replication by elected leaders

`Sim covers c g p` relates the cluster `c` to a state `p` of the abstract protocol in
`DistSys.Lib.Consensus`. In `p` each server has its full log (`Backs`), and a server whose
placeholder is wrong is blind.

A message is related to `p` by what it says about the leader of its term (`AppendSim`,
`InstallSim`), or about votes; these facts stay true as `p` goes on (`Le`), so nothing has to be
known about when a message was sent.

`covers data i e` is a parameter: the snapshot `data` accounts for the entry `e` at index `i`.
-/

namespace DistSys

open Raft

variable {n : ℕ} {C : Type} [Inhabited C]

/-! ## Messages and events -/

/-- The messages that `CommitChecker` has buffered. -/
def Raft.Checker.buffered : Checker C → List (ApplyMsg C)
  | .sending msgBuf => msgBuf
  | .sent msg msgBuf => msg :: msgBuf
  | _ => []

/-- The messages on their way to `applyCh`. -/
def Raft.outgoing (rf : Raft n C) : List (ApplyMsg C) := rf.checker.buffered ++ rf.snapSenders

variable (p : Proto (Fin n) (LogEntry C))

/-- `e` is at index `i + 1` of a segment that is committed by term `t`. -/
def CommittedAt (t : ℤ) (i : ℕ) (e : LogEntry C) : Prop := ∃ P, p.Committed P t ∧ P[i]? = some e

/-- A command message carries a committed entry. -/
def Approved (msg : ApplyMsg C) : Prop :=
  msg.commandValid = true → ∃ t i, msg.commandIndex = i + 1 ∧
    CommittedAt p t i ⟨msg.commandTerm, msg.command⟩

/-- An `AppendEntries` request carries a segment of the log of the leader of its term. -/
structure AppendSim (caller : Fin n) (args : AppendEntriesArgs n C) (L : List (LogEntry C)) :
    Prop where
  lead : ∃ M, p.lead args.term = some (caller, M) ∧ L <+: M
  length : L.length = args.prevLogIndex + args.entries.length
  entries : args.entries = L.drop args.prevLogIndex
  prevLogTerm : args.prevLogTerm = termAt L args.prevLogIndex
  commit_le : args.leaderCommit ≤ L.length
  committed : p.Committed (L.take args.leaderCommit) args.term

/-- An `InstallSnapshot` request carries a committed segment of the log of the leader of its
term. -/
structure InstallSim (covers : Data → ℕ → LogEntry C → Prop) (caller : Fin n)
    (args : InstallSnapshotArgs n C) (L : List (LogEntry C)) : Prop where
  lead : ∃ M, p.lead args.term = some (caller, M) ∧ L <+: M
  length : L.length = args.lastIncludedIndex
  term : args.lastIncludedTerm = termAt L args.lastIncludedIndex
  committed : p.Committed L args.term
  covered : ∀ i e, L[i]? = some e → covers args.data (i + 1) e

/-- What a call says about `p`. -/
def RpcSim (covers : Data → ℕ → LogEntry C → Prop) (caller server : Fin n) : Rpc n C → Prop
  | .appendEntries args reply => (∃ L, AppendSim p caller args L) ∧
      ∀ r, reply = some r → r.success = true →
        args.prevLogIndex + args.entries.length ≤ p.acked server args.term
  | .requestVote args _ =>
      p.ballot caller args.term = some (caller, args.lastLogTerm, args.lastLogIndex - 1)
  | .preVote _ => True
  | .installSnapshot args _ => ∃ L, InstallSim p covers caller args L

/-- What an event says about `p`. -/
def EventSim : Event n C → Prop
  | .apply _ _ msg => Approved p msg
  | .commit _ t base entries => ∀ k e, entries[k]? = some e → CommittedAt p t (base + k) e
  | _ => True

variable {p} {p' : Proto (Fin n) (LogEntry C)} {covers : Data → ℕ → LogEntry C → Prop}

section Mono

omit [Inhabited C] in
theorem CommittedAt.mono (hle : p.Le p') {t : ℤ} {i : ℕ} {e : LogEntry C}
    (h : CommittedAt p t i e) : CommittedAt p' t i e := by
  obtain ⟨P, hP, he⟩ := h
  exact ⟨P, hP.mono hle le_rfl, he⟩

theorem Approved.mono (hle : p.Le p') {msg : ApplyMsg C} (h : Approved p msg) :
    Approved p' msg := fun hv => by
  obtain ⟨t, i, hi, hc⟩ := h hv
  exact ⟨t, i, hi, hc.mono hle⟩

omit [Inhabited C] in
theorem exists_lead_mono (hle : p.Le p') {T : ℤ} {caller : Fin n} {L : List (LogEntry C)}
    (h : ∃ M, p.lead T = some (caller, M) ∧ L <+: M) :
    ∃ M, p'.lead T = some (caller, M) ∧ L <+: M := by
  obtain ⟨M, hM, hL⟩ := h
  obtain ⟨M', hM', hMM'⟩ := hle.lead _ _ _ hM
  exact ⟨M', hM', hL.trans hMM'⟩

omit [Inhabited C] in
theorem AppendSim.mono (hle : p.Le p') {caller : Fin n} {args : AppendEntriesArgs n C}
    {L : List (LogEntry C)} (h : AppendSim p caller args L) : AppendSim p' caller args L :=
  ⟨exists_lead_mono hle h.lead, h.length, h.entries, h.prevLogTerm, h.commit_le,
    h.committed.mono hle le_rfl⟩

omit [Inhabited C] in
theorem InstallSim.mono (hle : p.Le p') {caller : Fin n} {args : InstallSnapshotArgs n C}
    {L : List (LogEntry C)} (h : InstallSim p covers caller args L) :
    InstallSim p' covers caller args L :=
  ⟨exists_lead_mono hle h.lead, h.length, h.term, h.committed.mono hle le_rfl, h.covered⟩

omit [Inhabited C] in
theorem RpcSim.mono (hle : p.Le p') {caller server : Fin n} {rpc : Rpc n C}
    (h : RpcSim p covers caller server rpc) : RpcSim p' covers caller server rpc := by
  cases rpc with
  | appendEntries args reply =>
    obtain ⟨⟨L, hL⟩, hack⟩ := h
    exact ⟨⟨L, hL.mono hle⟩, fun r hr hs => (hack r hr hs).trans (hle.acked _ _)⟩
  | requestVote args reply => exact hle.ballot _ _ _ h
  | preVote reply => trivial
  | installSnapshot args reply =>
    obtain ⟨L, hL⟩ := h
    exact ⟨L, hL.mono hle⟩

theorem EventSim.mono (hle : p.Le p') {ev : Event n C} (h : EventSim p ev) : EventSim p' ev := by
  cases ev with
  | make s epoch base => trivial
  | start s i t command => trivial
  | commit s t base entries => exact fun k e he => (h k e he).mono hle
  | apply s epoch msg => exact Approved.mono hle h

end Mono

/-! ## The relation -/

/-- Server `rf` at place `s` of `p`. -/
structure ServerSim (covers : Data → ℕ → LogEntry C → Prop) (p : Proto (Fin n) (LogEntry C))
    (s : Fin n) (rf : Raft n C) : Prop where
  term : p.term s = rf.currentTerm
  backs : Backs (p.log s) (p.blind s) rf
  voted : (p.ballot s rf.currentTerm).map Prod.fst = rf.votedFor
  commit_base : rf.lastIncludedIndex ≤ rf.commitIndex
  commit_le : rf.commitIndex ≤ (p.log s).length
  committed : p.Committed ((p.log s).take rf.commitIndex) rf.currentTerm
  covered : ∀ i e, i < rf.lastIncludedIndex → (p.log s)[i]? = some e → covers rf.snapShot (i + 1) e
  outgoing : ∀ msg ∈ rf.outgoing, Approved p msg
  /-- What a candidate has shown is still what its log shows, as long as its term has no leader. -/
  shown : ∀ sh, p.ballot s rf.currentTerm = some (s, sh) → p.lead rf.currentTerm = none →
    sh = (rf.lastShown, (p.log s).length)

/-- `s` waits for the reply to an `AppendEntries` request of term `T`, or has still to send one. -/
def Cluster.Sending (c : Cluster n C) (s : Fin n) (T : ℤ) : Prop :=
  (∃ call ∈ c.calls, call.waiting = true ∧ call.caller = s ∧ call.epoch = c.epoch s ∧
    ∃ args reply, call.rpc = .appendEntries args reply ∧ args.term = T) ∨
  ∃ t ∈ c.tasks, t.caller = s ∧ t.epoch = c.epoch s ∧
    ∃ args, t.task = .sendAppendEntries args ∧ args.term = T

structure Sim (covers : Data → ℕ → LogEntry C → Prop) (c : Cluster n C) (g : History n)
    (p : Proto (Fin n) (LogEntry C)) : Prop where
  inv : p.Inv
  vote : ∀ q T, (p.ballot q T).map Prod.fst = g.vote q T
  lead : ∀ T, (p.lead T).map Prod.fst = g.leader T
  /-- A candidate shows all voters what it shows itself. -/
  own : ∀ q T r sh, p.ballot q T = some (r, sh) → p.ballot r T = some (r, sh)
  servers : ∀ s, ServerSim covers p s (c.servers s)
  tasks : ∀ t ∈ c.tasks, ∀ args, t.task = .sendAppendEntries args → ∃ L, AppendSim p t.caller args L
  calls : ∀ call ∈ c.calls, RpcSim p covers call.caller call.server call.rpc
  matched : ∀ s, (c.servers s).state = .leader ∨ c.Sending s (c.servers s).currentTerm →
    ∀ i, (c.servers s).matchIndex i ≤ p.acked i (c.servers s).currentTerm
  trace : ∀ ev ∈ c.trace, EventSim p ev

namespace Cluster

variable {c c' : Cluster n C}

theorem Sending.of_append {new : List (Call n C)} (hcalls : c'.calls = c.calls ++ new)
    (hepoch : c'.epoch = c.epoch) (htasks : c'.tasks = c.tasks)
    (hnew : ∀ call ∈ new, ∀ args reply, call.rpc ≠ .appendEntries args reply) {s : Fin n} {T : ℤ}
    (h : c'.Sending s T) : c.Sending s T := by
  rcases h with ⟨call, hcall, hw, hs, hep, args, reply, hrpc, hT⟩ | ⟨t, ht, hs, hep, htask⟩
  · rw [hcalls, List.mem_append] at hcall
    rcases hcall with hcall | hcall
    · exact Or.inl ⟨call, hcall, hw, hs, hepoch ▸ hep, args, reply, hrpc, hT⟩
    · exact absurd hrpc (hnew call hcall args reply)
  · exact Or.inr ⟨t, htasks ▸ ht, hs, hepoch ▸ hep, htask⟩

theorem Sending.of_set {k : ℕ} {call₀ call₁ : Call n C} (hk : c.calls[k]? = some call₀)
    (hcalls : c'.calls = c.calls.set k call₁) (hepoch : c'.epoch = c.epoch)
    (htasks : c'.tasks = c.tasks) (hcaller : call₁.caller = call₀.caller)
    (hep₁ : call₁.epoch = call₀.epoch) (hw₁ : call₁.waiting = true → call₀.waiting = true)
    (hrpc₁ : ∀ args reply, call₁.rpc = .appendEntries args reply →
      ∃ reply', call₀.rpc = .appendEntries args reply') {s : Fin n} {T : ℤ}
    (h : c'.Sending s T) : c.Sending s T := by
  rcases h with ⟨call, hcall, hw, hs, hep, args, reply, hrpc, hT⟩ | ⟨t, ht, hs, hep, htask⟩
  · rw [hcalls] at hcall
    rcases List.mem_or_eq_of_mem_set hcall with hcall | rfl
    · exact Or.inl ⟨call, hcall, hw, hs, hepoch ▸ hep, args, reply, hrpc, hT⟩
    · obtain ⟨reply', hrpc₀⟩ := hrpc₁ args reply hrpc
      exact Or.inl ⟨call₀, List.mem_of_getElem? hk, hw₁ hw, by rw [← hcaller, hs],
        by rw [← hep₁, hep, hepoch], args, reply', hrpc₀, hT⟩
  · exact Or.inr ⟨t, htasks ▸ ht, hs, hepoch ▸ hep, htask⟩

end Cluster

/-- A server that does not move stays related when `p` goes on. -/
theorem ServerSim.other {s : Fin n} {rf : Raft n C} (h : ServerSim covers p s rf) (hle : p.Le p')
    (hterm : p'.term s = p.term s) (hlog : p'.log s = p.log s) (hblind : p'.blind s = p.blind s)
    (hballot : p'.ballot s = p.ballot s) : ServerSim covers p' s rf where
  term := hterm.trans h.term
  backs := by
    rw [hlog, hblind]
    exact h.backs
  voted := by
    rw [hballot]
    exact h.voted
  commit_base := h.commit_base
  commit_le := by
    rw [hlog]
    exact h.commit_le
  committed := by
    rw [hlog]
    exact h.committed.mono hle le_rfl
  covered := by
    rw [hlog]
    exact h.covered
  outgoing msg hmsg := (h.outgoing msg hmsg).mono hle
  shown sh hsh hnone := by
    rw [hlog]
    rw [hballot] at hsh
    refine h.shown sh hsh ?_
    cases hl : p.lead rf.currentTerm with
    | none => rfl
    | some x =>
      obtain ⟨L', hL', -⟩ := hle.lead _ _ _ hl
      rw [hnone] at hL'
      cases hL'

namespace Sim

variable {c c' : Cluster n C} {g : History n} {a : Action n C}

/-- Steps in which no server becomes a leader. -/
theorem keep (h : Sim covers c g p) (he : Elected c g) (hinv : p'.Inv) (hle : p.Le p')
    (hlead : ∀ s, (c'.servers s).state = .leader → (c.servers s).state = .leader ∧
      (c'.servers s).currentTerm = (c.servers s).currentTerm)
    (hleads : ∀ T, (p'.lead T).map Prod.fst = (p.lead T).map Prod.fst)
    (hballot : ∀ q T, T ≠ (c'.servers q).currentTerm → p'.ballot q T = p.ballot q T)
    (hown : ∀ q T r sh, p'.ballot q T = some (r, sh) → p'.ballot r T = some (r, sh))
    (hservers : ∀ s, ServerSim covers p' s (c'.servers s))
    (htasks : ∀ t ∈ c'.tasks, ∀ args, t.task = .sendAppendEntries args →
      ∃ L, AppendSim p' t.caller args L)
    (hcalls : ∀ call ∈ c'.calls, RpcSim p' covers call.caller call.server call.rpc)
    (hmatched : ∀ s, (c'.servers s).state = .leader ∨ c'.Sending s (c'.servers s).currentTerm →
      ∀ i, (c'.servers s).matchIndex i ≤ p'.acked i (c'.servers s).currentTerm)
    (htrace : ∀ ev ∈ c'.trace, ev ∈ c.trace ∨ EventSim p' ev) :
    Sim covers c' (g.observe c') p' := by
  refine ⟨hinv, fun q T => ?_, fun T => ?_, hown, hservers, htasks, hcalls, hmatched,
    fun ev hev => ?_⟩
  · by_cases hT : T = (c'.servers q).currentTerm
    · rw [hT, History.observe_vote_self]
      exact (hservers q).voted
    · rw [History.observe_vote_of_ne g hT, hballot q T hT]
      exact h.vote q T
  · rw [hleads, h.lead, g.observe_leader_eq]
    intro s hs
    obtain ⟨hl, hterm⟩ := hlead s hs
    rw [hterm]
    exact he.led s hl
  · rcases htrace ev hev with hev | hev
    · exact (h.trace ev hev).mono hle
    · exact hev

/-- Steps of server `s` alone, in which it does not become a leader. -/
theorem update (h : Sim covers c g p) (he : Elected c g) {s : Fin n} (rf : Raft n C)
    (hinv : p'.Inv) (hle : p.Le p')
    (hother : ∀ r, r ≠ s → p'.term r = p.term r ∧ p'.log r = p.log r ∧ p'.blind r = p.blind r ∧
      p'.ballot r = p.ballot r)
    (hleads : ∀ T, (p'.lead T).map Prod.fst = (p.lead T).map Prod.fst)
    (hballot : ∀ T, T ≠ rf.currentTerm → p'.ballot s T = p.ballot s T)
    (hown : ∀ q T r sh, p'.ballot q T = some (r, sh) → p'.ballot r T = some (r, sh))
    (hleader : rf.state = .leader → (c.servers s).state = .leader ∧
      rf.currentTerm = (c.servers s).currentTerm)
    (hserver : ServerSim covers p' s rf) (hservers : c'.servers = (c.set s rf).servers)
    (htasks : ∀ t ∈ c'.tasks, ∀ args, t.task = .sendAppendEntries args →
      ∃ L, AppendSim p' t.caller args L)
    (hcalls : ∀ call ∈ c'.calls, RpcSim p' covers call.caller call.server call.rpc)
    (hsend : ∀ r T, r ≠ s → c'.Sending r T → c.Sending r T)
    (hmatched : rf.state = .leader ∨ c'.Sending s rf.currentTerm →
      ∀ i, rf.matchIndex i ≤ p'.acked i rf.currentTerm)
    (htrace : ∀ ev ∈ c'.trace, ev ∈ c.trace ∨ EventSim p' ev) :
    Sim covers c' (g.observe c') p' := by
  have hself : c'.servers s = rf := by
    rw [hservers]
    simp only [Cluster.set, Function.update_self]
  have hne : ∀ {r}, r ≠ s → c'.servers r = c.servers r := fun hr => by
    rw [hservers]
    simp only [Cluster.set, Function.update_of_ne hr]
  refine h.keep he hinv hle (fun r hl => ?_) hleads (fun r T hT => ?_) hown (fun r => ?_) htasks
    hcalls (fun r hr i => ?_) htrace
  · by_cases hr : r = s
    · subst hr
      rw [hself] at hl ⊢
      exact hleader hl
    · rw [hne hr] at hl ⊢
      exact ⟨hl, rfl⟩
  · by_cases hr : r = s
    · subst hr
      rw [hself] at hT
      exact hballot T hT
    · rw [(hother r hr).2.2.2]
  · by_cases hr : r = s
    · subst hr
      rw [hself]
      exact hserver
    · rw [hne hr]
      obtain ⟨hterm, hlog, hblind, hb⟩ := hother r hr
      exact (h.servers r).other hle hterm hlog hblind hb
  · by_cases hrs : r = s
    · subst hrs
      rw [hself] at hr ⊢
      exact hmatched hr i
    · rw [hne hrs] at hr ⊢
      exact (h.matched r (hr.imp_right (hsend r _ hrs)) i).trans (hle.acked _ _)

end Sim

end DistSys
