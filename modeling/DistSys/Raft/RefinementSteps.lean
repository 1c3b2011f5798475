import DistSys.Raft.Refinement

/-!
# Each step of the cluster is a step of the abstract protocol

One lemma for each kind of step: steps that at most raise a server's term (`Sim.quiet`), votes
(`Sim.grant`, `Sim.campaign`), `Start` (`Sim.start`), accepted `AppendEntries` and
`InstallSnapshot` requests (`Sim.accept`, `Sim.install`), compaction (`Sim.compact`) and elections
won (`Sim.win`). `Sim.act` puts them together, for steps in which no server accepts a snapshot
older than its own (`Cluster.NoStaleSnapshot`).
-/

namespace DistSys

open Raft

variable {n : ℕ} {C : Type} [Inhabited C] {p : Proto (Fin n) (LogEntry C)}
  {covers : Data → ℕ → LogEntry C → Prop}

/-! ## Steps that at most raise the term -/

/-- The log stays, a new term comes with no vote, and no leader appears. -/
structure Raft.Quiet (rf rf' : Raft n C) : Prop where
  log : SameLog rf rf'
  term_le : rf.currentTerm ≤ rf'.currentTerm
  vote_same : rf'.currentTerm = rf.currentTerm → rf'.votedFor = rf.votedFor
  vote_none : rf'.currentTerm ≠ rf.currentTerm → rf'.votedFor = none
  leader : rf'.state = .leader → rf.state = .leader ∧ rf'.currentTerm = rf.currentTerm

theorem Raft.Quiet.of_same {rf rf' : Raft n C} (log : SameLog rf rf')
    (term : rf'.currentTerm = rf.currentTerm) (vote : rf'.votedFor = rf.votedFor)
    (leader : rf'.state = .leader → rf.state = .leader) : Quiet rf rf' :=
  ⟨log, term.ge, fun _ => vote, fun h => absurd term h, fun h => ⟨leader h, term⟩⟩

theorem ServerSim.ballot_none {s : Fin n} {rf : Raft n C} (h : ServerSim covers p s rf)
    (hinv : p.Inv) {T : ℤ} (hT : rf.currentTerm < T) : p.ballot s T = none := by
  cases hb : p.ballot s T with
  | none => rfl
  | some x =>
    have := hinv.ballot_term s T x hb
    rw [h.term] at this
    omega

/-- A quiet step of server `s`, with the commit index and the buffer it leads to. -/
theorem ServerSim.quiet {s : Fin n} {rf rf' : Raft n C} (h : ServerSim covers p s rf)
    (hinv : p.Inv) (hq : Quiet rf rf')
    (hcommit : rf'.lastIncludedIndex ≤ rf'.commitIndex ∧ rf'.commitIndex ≤ (p.log s).length ∧
      p.Committed ((p.log s).take rf'.commitIndex) rf'.currentTerm)
    (hout : ∀ msg ∈ rf'.outgoing, Approved p msg) :
    ServerSim covers (p.raise s rf'.currentTerm) s rf' := by
  have hle : p.Le (p.raise s rf'.currentTerm) := Proto.Le.raise (h.term ▸ hq.term_le)
  refine ⟨?_, h.backs.of_sameLog hq.log, ?_, hcommit.1, hcommit.2.1, hcommit.2.2.mono hle le_rfl, ?_,
    fun msg hmsg => (hout msg hmsg).mono hle, fun sh hsh hnone => ?_⟩
  · simp only [Proto.raise, Function.update_self]
  · show (p.ballot s rf'.currentTerm).map Prod.fst = _
    by_cases hterm : rf'.currentTerm = rf.currentTerm
    · rw [hq.vote_same hterm, hterm]
      exact h.voted
    · have hlt := lt_of_le_of_ne hq.term_le (Ne.symm hterm)
      rw [hq.vote_none hterm, h.ballot_none hinv hlt]
      rfl
  · rw [hq.log.lastIncludedIndex, hq.log.snapShot]
    exact h.covered
  · have hsh : p.ballot s rf'.currentTerm = some (s, sh) := hsh
    have hnone : p.lead rf'.currentTerm = none := hnone
    by_cases hterm : rf'.currentTerm = rf.currentTerm
    · rw [hterm] at hsh hnone
      have := h.shown sh hsh hnone
      rwa [lastShown, ← hq.log.log, ← lastShown] at this
    · rw [h.ballot_none hinv (lt_of_le_of_ne hq.term_le (Ne.symm hterm))] at hsh
      cases hsh

namespace Sim

variable {c c' : Cluster n C} {g : History n} {a : Action n C}

theorem sending_le (he : Elected c g) {s : Fin n} {T : ℤ} (h : c.Sending s T) :
    T ≤ (c.servers s).currentTerm := by
  rcases h with ⟨call, hcall, -, rfl, -, args, reply, hrpc, rfl⟩ | ⟨t, ht, rfl, -, args, htask, rfl⟩
  · have hok := (he.calls call hcall).rpc
    rw [hrpc] at hok
    exact (he.won _ _ hok).1
  · exact (he.won _ _ ((he.tasks t ht).2 args htask)).1

/-- Server `s` moves quietly, whatever happens to calls, tasks and the trace. -/
theorem quiet (h : Sim covers c g p) (he : Elected c g) {s : Fin n} {rf : Raft n C}
    (hq : Quiet (c.servers s) rf)
    (hcommit : rf.lastIncludedIndex ≤ rf.commitIndex ∧ rf.commitIndex ≤ (p.log s).length ∧
      p.Committed ((p.log s).take rf.commitIndex) rf.currentTerm)
    (hout : ∀ msg ∈ rf.outgoing, Approved p msg)
    (hservers : c'.servers = (c.set s rf).servers)
    (htasks : ∀ t ∈ c'.tasks, ∀ args, t.task = .sendAppendEntries args →
      ∃ L, AppendSim p t.caller args L)
    (hcalls : ∀ call ∈ c'.calls, RpcSim p covers call.caller call.server call.rpc)
    (hsend : ∀ r T, r ≠ s → c'.Sending r T → c.Sending r T)
    (hmatched : rf.state = .leader ∨ c'.Sending s rf.currentTerm →
      ∀ i, rf.matchIndex i ≤ p.acked i rf.currentTerm)
    (htrace : ∀ ev ∈ c'.trace, ev ∈ c.trace ∨ EventSim p ev) :
    Sim covers c' (g.observe c') (p.raise s rf.currentTerm) := by
  have hterm : p.term s ≤ rf.currentTerm := (h.servers s).term ▸ hq.term_le
  have hle : p.Le (p.raise s rf.currentTerm) := Proto.Le.raise hterm
  refine h.update he rf (h.inv.raise hterm) hle
    (fun r hr => ⟨Function.update_of_ne hr _ _, rfl, rfl, rfl⟩) (fun _ => rfl) (fun _ _ => rfl) h.own
    hq.leader ((h.servers s).quiet h.inv hq hcommit hout) hservers (fun t ht args hargs => ?_)
    (fun call hcall => (hcalls call hcall).mono hle) hsend hmatched
    fun ev hev => (htrace ev hev).imp_right (EventSim.mono hle)
  obtain ⟨L, hL⟩ := htasks t ht args hargs
  exact ⟨L, hL.mono hle⟩

/-- The facts about `matchIndex` when it does not change. -/
theorem matched_same (h : Sim covers c g p) (he : Elected c g) {s : Fin n} {rf : Raft n C}
    (hq : Quiet (c.servers s) rf) (hmatch : rf.matchIndex = (c.servers s).matchIndex)
    (hsend : c'.Sending s rf.currentTerm → c.Sending s rf.currentTerm)
    (hl : rf.state = .leader ∨ c'.Sending s rf.currentTerm) (i : Fin n) :
    rf.matchIndex i ≤ p.acked i rf.currentTerm := by
  rw [hmatch]
  rcases hl with hl | hl
  · obtain ⟨hl', hterm⟩ := hq.leader hl
    rw [hterm]
    exact h.matched s (Or.inl hl') i
  · have hs := hsend hl
    have hterm : rf.currentTerm = (c.servers s).currentTerm :=
      le_antisymm (sending_le he hs) hq.term_le
    rw [hterm] at hs ⊢
    exact h.matched s (Or.inr hs) i

/-- Nothing about commitment changes, except that the term may be higher. -/
theorem commit_same (h : Sim covers c g p) {s : Fin n} {rf : Raft n C}
    (hq : Quiet (c.servers s) rf) (hc : rf.commitIndex = (c.servers s).commitIndex) :
    rf.lastIncludedIndex ≤ rf.commitIndex ∧ rf.commitIndex ≤ (p.log s).length ∧
      p.Committed ((p.log s).take rf.commitIndex) rf.currentTerm := by
  have hs := h.servers s
  rw [hc, hq.log.lastIncludedIndex]
  exact ⟨hs.commit_base, hs.commit_le, hs.committed.mono (Proto.Le.refl p) hq.term_le⟩

/-- A quiet step that changes neither the commit index, nor what is sent to the service, nor
`matchIndex`. -/
theorem quiet_same (h : Sim covers c g p) (he : Elected c g) {s : Fin n} {rf : Raft n C}
    (hq : Quiet (c.servers s) rf) (hcommit : rf.commitIndex = (c.servers s).commitIndex)
    (hout : rf.outgoing = (c.servers s).outgoing)
    (hmatch : rf.matchIndex = (c.servers s).matchIndex)
    (hservers : c'.servers = (c.set s rf).servers)
    (htasks : ∀ t ∈ c'.tasks, ∀ args, t.task = .sendAppendEntries args →
      ∃ L, AppendSim p t.caller args L)
    (hcalls : ∀ call ∈ c'.calls, RpcSim p covers call.caller call.server call.rpc)
    (hsend : ∀ r T, c'.Sending r T → c.Sending r T)
    (htrace : ∀ ev ∈ c'.trace, ev ∈ c.trace ∨ EventSim p ev) :
    Sim covers c' (g.observe c') (p.raise s rf.currentTerm) :=
  h.quiet he hq (h.commit_same hq hcommit) (by rw [hout]; exact (h.servers s).outgoing) hservers
    htasks hcalls (fun r T _ => hsend r T)
    (fun hl => h.matched_same he hq hmatch (hsend s _) hl) htrace

theorem buffered_of_woken {ch ch' : Checker C} (h : Woken ch ch') : ch'.buffered = ch.buffered := by
  rcases h with rfl | ⟨rfl, rfl⟩ <;> rfl

theorem outgoing_of_woken {rf rf' : Raft n C} (h : Woken rf.checker rf'.checker)
    (hs : rf'.snapSenders = rf.snapSenders) : rf'.outgoing = rf.outgoing := by
  rw [outgoing, outgoing, hs, buffered_of_woken h]

/-! ## Requests that change nothing but the term -/

theorem calls_replace (h : Sim covers c g p) {k : ℕ} (call : Call n C)
    (hrpc : RpcSim p covers call.caller call.server call.rpc) :
    ∀ call' ∈ c.calls.set k call, RpcSim p covers call'.caller call'.server call'.rpc :=
  fun call' hcall' => by
    rcases List.mem_or_eq_of_mem_set hcall' with hcall' | rfl
    · exact h.calls call' hcall'
    · exact hrpc

/-- A request is handled without touching the log. -/
theorem deliver_quiet (h : Sim covers c g p) (he : Elected c g) {k : ℕ} {call : Call n C}
    {rf : Raft n C} {rpc : Rpc n C} (hk : c.calls[k]? = some call)
    (hq : Quiet (c.servers call.server) rf)
    (hsame : rf.commitIndex = (c.servers call.server).commitIndex ∧
      rf.outgoing = (c.servers call.server).outgoing ∧
      rf.matchIndex = (c.servers call.server).matchIndex)
    (hargs : ∀ args reply, rpc = .appendEntries args reply →
      ∃ reply', call.rpc = .appendEntries args reply')
    (hrpc : RpcSim p covers call.caller call.server rpc) :
    ∃ p', p.Le p' ∧ Sim covers (c.answerCall k call rf rpc)
      (g.observe (c.answerCall k call rf rpc)) p' := by
  refine ⟨_, Proto.Le.raise ((h.servers call.server).term ▸ hq.term_le),
    h.quiet_same he hq hsame.1 hsame.2.1 hsame.2.2 rfl h.tasks (h.calls_replace _ hrpc)
      (fun r T hs => ?_) fun ev hev => Or.inl hev⟩
  have hcalls : (c.answerCall k call rf rpc).calls = c.calls.set k { call with rpc := rpc } := rfl
  exact hs.of_set hk hcalls rfl rfl rfl rfl id hargs

theorem quiet_adoptTerm (rf : Raft n C) (t : ℤ) : Quiet rf (rf.adoptTerm t).persist := by
  unfold adoptTerm
  split
  · rename_i hlt
    exact ⟨⟨rfl, rfl, rfl, rfl⟩, hlt.le, fun h => absurd h hlt.ne', fun _ => rfl,
      fun h => by cases h⟩
  · exact Quiet.of_same ⟨rfl, rfl, rfl, rfl⟩ rfl rfl id

theorem quiet_follow {rf : Raft n C} {t : ℤ} (ht : rf.currentTerm < t) :
    Quiet rf (rf.follow t).persist :=
  ⟨⟨rfl, rfl, rfl, rfl⟩, ht.le, fun h => absurd h ht.ne', fun _ => rfl, fun h => by cases h⟩

/-- A reply is handled without touching the log. -/
theorem receive_quiet (h : Sim covers c g p) (he : Elected c g) {k : ℕ} {call : Call n C}
    {rf : Raft n C} (hk : c.calls[k]? = some call) (hq : Quiet (c.servers call.caller) rf)
    (hcommit : rf.lastIncludedIndex ≤ rf.commitIndex ∧
      rf.commitIndex ≤ (p.log call.caller).length ∧
      p.Committed ((p.log call.caller).take rf.commitIndex) rf.currentTerm)
    (hout : rf.outgoing = (c.servers call.caller).outgoing)
    (hmatched : rf.state = .leader ∨ c.Sending call.caller rf.currentTerm →
      ∀ i, rf.matchIndex i ≤ p.acked i rf.currentTerm) :
    ∃ p', p.Le p' ∧ Sim covers (c.finishCall k call rf) (g.observe (c.finishCall k call rf)) p' := by
  have hcalls : (c.finishCall k call rf).calls = c.calls.set k { call with waiting := false } := rfl
  have hsend : ∀ r T, (c.finishCall k call rf).Sending r T → c.Sending r T := fun r T hs =>
    hs.of_set hk hcalls rfl rfl rfl rfl (fun hw => by cases hw)
      fun args reply hrpc => ⟨reply, hrpc⟩
  refine ⟨_, Proto.Le.raise ((h.servers call.caller).term ▸ hq.term_le),
    h.quiet he hq hcommit (by rw [hout]; exact (h.servers call.caller).outgoing) rfl h.tasks
      (h.calls_replace _ (h.calls call (List.mem_of_getElem? hk))) (fun r T _ => hsend r T)
      (fun hl => hmatched (hl.imp_right (hsend _ _))) fun ev hev => ?_⟩
  rcases List.mem_append.1 hev with hev | hev
  · exact Or.inl hev
  · right
    rw [Cluster.commitEvents] at hev
    split at hev
    · rw [List.mem_singleton.1 hev]
      intro i e hi
      have hbacks := (h.servers call.caller).backs.of_sameLog hq.log
      obtain ⟨hd, hlog, -⟩ := hbacks.log
      refine ⟨_, hcommit.2.2, ?_⟩
      rw [hlog, List.drop_succ_cons, List.drop_zero, List.getElem?_take] at hi
      split at hi
      · rw [List.getElem?_drop] at hi
        rw [List.getElem?_take, if_pos (by omega)]
        exact hi
      · cases hi
    · cases hev

/-! ## Votes -/

/-- A vote for `q` of a server that had none, where `q` shows others what it shows itself. -/
theorem own_cast (h : Sim covers c g p) {s q : Fin n} {t t' : ℤ} {sh : ℤ × ℕ}
    (hnone : p.ballot s t = none) (hq : q = s ∨ p.ballot q t = some (q, sh)) (q' : Fin n) (T : ℤ)
    (r : Fin n) (sh' : ℤ × ℕ)
    (hb : ((p.raise s t').cast s t q sh).ballot q' T = some (r, sh')) :
    ((p.raise s t').cast s t q sh).ballot r T = some (r, sh') := by
  have hb : (if q' = s ∧ T = t then some (q, sh) else p.ballot q' T) = some (r, sh') := hb
  show (if r = s ∧ T = t then some (q, sh) else p.ballot r T) = some (r, sh')
  split at hb
  · rename_i hnew
    cases hb
    rcases hq with rfl | hq
    · rw [if_pos ⟨rfl, hnew.2⟩]
    · split
      · rfl
      · rw [hnew.2, hq]
  · have hr := h.own q' T r sh' hb
    rw [if_neg, hr]
    rintro ⟨rfl, rfl⟩
    rw [hnone] at hr
    cases hr

/-- Server `s` votes for `q` in term `t`, in which it has not voted. -/
theorem vote_new (h : Sim covers c g p) (he : Elected c g) {s q : Fin n} {t : ℤ} (rf : Raft n C)
    {sh : ℤ × ℕ} (hlog : SameLog (c.servers s) rf) (hterm : rf.currentTerm = t)
    (hvoted : rf.votedFor = some q) (hnl : rf.state ≠ .leader)
    (hsame : rf.commitIndex = (c.servers s).commitIndex ∧ rf.outgoing = (c.servers s).outgoing ∧
      rf.matchIndex = (c.servers s).matchIndex)
    (hle : (c.servers s).currentTerm ≤ t) (hnone : p.ballot s t = none)
    (hup : p.blind s ∨ Proto.UpToDate sh (p.log s))
    (hq : q = s ∧ sh = (rf.lastShown, (p.log s).length) ∨ q ≠ s ∧ p.ballot q t = some (q, sh))
    (hservers : c'.servers = (c.set s rf).servers) (htasks : c'.tasks = c.tasks)
    (hcalls : ∀ call ∈ c'.calls, RpcSim p covers call.caller call.server call.rpc ∨
      RpcSim ((p.raise s t).cast s t q sh) covers call.caller call.server call.rpc)
    (hsend : ∀ r T, c'.Sending r T → c.Sending r T) (htrace : c'.trace = c.trace) :
    ∃ p', p.Le p' ∧ Sim covers c' (g.observe c') p' := by
  have hs := h.servers s
  have hraise : p.Le (p.raise s t) := Proto.Le.raise (hs.term ▸ hle)
  have hcast : (p.raise s t).Le ((p.raise s t).cast s t q sh) :=
    Proto.Le.cast (p := p.raise s t) hnone q sh
  have hle' := hraise.trans hcast
  have hself : (p.raise s t).term s = t := by simp only [Proto.raise, Function.update_self]
  have hballot : ((p.raise s t).cast s t q sh).ballot s t = some (q, sh) := if_pos ⟨rfl, rfl⟩
  refine ⟨_, hle', h.update he rf ((h.inv.raise (hs.term ▸ hle)).cast hself hnone q hup) hle'
    (fun r hr => ⟨Function.update_of_ne hr _ _, rfl, rfl, ?_⟩) (fun _ => rfl) (fun T hT => ?_)
    (h.own_cast hnone (hq.imp And.left And.right)) (fun hl => absurd hl hnl) ?_ hservers
    (fun t ht args hargs => ?_) (fun call hcall => (hcalls call hcall).elim (RpcSim.mono hle') id)
    (fun r T _ => hsend r T) (fun hl i => ?_)
    fun ev hev => Or.inl (htrace ▸ hev)⟩
  · funext T
    exact if_neg fun hrs => hr hrs.1
  · exact if_neg fun hT' => hT (hT'.2.trans hterm.symm)
  · refine ⟨hself.trans hterm.symm, hs.backs.of_sameLog hlog, ?_, ?_, ?_, ?_, ?_, ?_,
      fun sh' hsh' _ => ?_⟩
    · rw [hterm, hballot, hvoted]
      rfl
    · rw [hlog.lastIncludedIndex, hsame.1]
      exact hs.commit_base
    · rw [hsame.1]
      exact hs.commit_le
    · rw [hsame.1, hterm]
      exact hs.committed.mono hle' hle
    · rw [hlog.lastIncludedIndex, hlog.snapShot]
      exact hs.covered
    · rw [hsame.2.1]
      exact fun msg hmsg => (hs.outgoing msg hmsg).mono hle'
    · rw [hterm, hballot] at hsh'
      rcases hq with ⟨-, hsh⟩ | ⟨hne, -⟩
      · cases hsh'
        exact hsh
      · cases hsh'
        exact absurd rfl hne
  · obtain ⟨L, hL⟩ := h.tasks t (htasks ▸ ht) args hargs
    exact ⟨L, hL.mono hle'⟩
  · rcases hl with hl | hl
    · exact absurd hl hnl
    · have hl := hsend _ _ hl
      have hge := sending_le he hl
      have hT : rf.currentTerm = (c.servers s).currentTerm := by omega
      rw [hT] at hl ⊢
      rw [hsame.2.2]
      exact (h.matched s (Or.inr hl) i).trans (hle'.acked _ _)

/-- `RequestVote` grants a vote. -/
theorem grant (h : Sim covers c g p) (he : Elected c g) {k : ℕ} {call : Call n C}
    {args : RequestVoteArgs n} (hk : c.calls[k]? = some call)
    (hrpc : call.rpc = .requestVote args none)
    (hle : (c.servers call.server).currentTerm ≤ args.term)
    (hfree : args.term = (c.servers call.server).currentTerm →
      (c.servers call.server).votedFor = none ∨
        (c.servers call.server).votedFor = some args.candidateId)
    (hup : (c.servers call.server).LogUpToDate args) (reply : RequestVoteReply) {c' : Cluster n C}
    (hc' : c' = c.answerCall k call
      ((c.servers call.server).grant args.term args.candidateId).persist
      (.requestVote args (some reply))) :
    ∃ p', p.Le p' ∧ Sim covers c' (g.observe c') p' := by
  have hs := h.servers call.server
  have hcall := h.calls call (List.mem_of_getElem? hk)
  have hok := he.calls call (List.mem_of_getElem? hk)
  rw [hrpc] at hcall
  have hcand : args.candidateId = call.caller := by
    have := hok.rpc
    rw [hrpc] at this
    exact this.1
  have hargs : ∀ args' reply', Rpc.requestVote args (some reply) = Rpc.appendEntries (C := C)
      args' reply' → ∃ reply'', call.rpc = .appendEntries args' reply'' :=
    fun _ _ h' => nomatch h'
  subst hc'
  by_cases hagain : args.term = (c.servers call.server).currentTerm ∧
      (c.servers call.server).votedFor = some args.candidateId
  · -- a vote granted before is granted once more
    exact h.deliver_quiet he hk (Quiet.of_same ⟨rfl, rfl, rfl, rfl⟩ hagain.1 hagain.2.symm
      fun hl => by cases hl) ⟨rfl, rfl, rfl⟩ hargs hcall
  · have hnone : p.ballot call.server args.term = none := by
      rcases hle.lt_or_eq with hlt | heq
      · exact hs.ballot_none h.inv hlt
      · have hv : (c.servers call.server).votedFor = none :=
          (hfree heq.symm).resolve_right fun hv => hagain ⟨heq.symm, hv⟩
        have := hs.voted
        rwa [hv, heq, Option.map_eq_none_iff] at this
    have hup' : p.blind call.server ∨
        Proto.UpToDate (args.lastLogTerm, args.lastLogIndex - 1) (p.log call.server) := by
      by_cases hb : p.blind call.server
      · exact Or.inl hb
      · obtain ⟨last, hlast, hcmp⟩ := hup
        have hshown := hs.backs.lastShown_eq.1 hb
        rw [lastShown_of_getLast? hlast] at hshown
        rw [hshown, hs.backs.virtualLogIdx_eq] at hcmp
        exact Or.inr (hcmp.imp_right fun hc => ⟨hc.1, by show _ ≤ args.lastLogIndex - 1; omega⟩)
    have hcalls : (c.answerCall k call ((c.servers call.server).grant args.term
        args.candidateId).persist (.requestVote args (some reply))).calls =
        c.calls.set k { call with rpc := .requestVote args (some reply) } := rfl
    have hne : args.candidateId ≠ call.server := hcand ▸ hok.ne.symm
    refine h.vote_new he ((c.servers call.server).grant args.term args.candidateId).persist
      ⟨rfl, rfl, rfl, rfl⟩ rfl rfl nofun ⟨rfl, rfl, rfl⟩ hle hnone hup'
      (Or.inr ⟨hne, hcand ▸ hcall⟩) rfl rfl
      (fun call' hcall' => Or.inl (h.calls_replace _ hcall call' hcall'))
      (fun r T hs => hs.of_set hk hcalls rfl rfl rfl rfl id hargs) rfl

/-- A candidate starts an election. -/
theorem campaign (h : Sim covers c g p) (he : Elected c g) {s : Fin n} {args : RequestVoteArgs n}
    (hcand : (c.servers s).state = .candidate) {last : LogEntry C}
    (hlast : (c.servers s).log.getLast? = some last)
    (hargs : args = ⟨(c.servers s).currentTerm + 1, (c.servers s).me,
      (c.servers s).virtualLogIdx (c.servers s).log.length, last.term⟩) {c' : Cluster n C}
    (hc' : c' = Elected.campaigning c s args) :
    ∃ p', p.Le p' ∧ Sim covers c' (g.observe c') p' := by
  have hs := h.servers s
  have hme := he.sound.me s
  have hlt : (c.servers s).currentTerm < (c.servers s).currentTerm + 1 := by omega
  have hnone := hs.ballot_none h.inv hlt
  have hshown := hs.backs.lastShown_eq
  have hshow : (c.servers s).lastShown = last.term := lastShown_of_getLast? hlast
  have hup : p.blind s ∨ Proto.UpToDate (last.term, (p.log s).length) (p.log s) := by
    by_cases hb : p.blind s
    · exact Or.inl hb
    · exact Or.inr (Or.inr ⟨hshow.symm.trans (hshown.1 hb), le_rfl⟩)
  subst hc'
  have hcalls : (Elected.campaigning c s args).calls = c.calls ++
    (c.servers s).otherPeers.map fun i =>
      { caller := s, epoch := c.epoch s, server := i, rpc := .requestVote args none } := rfl
  refine h.vote_new he (c.servers s).campaign ⟨rfl, rfl, rfl, rfl⟩ rfl (congrArg some hme)
    (fun hl => ?_) ⟨rfl, rfl, rfl⟩ hlt.le hnone hup
    (Or.inl ⟨rfl, congrArg (·, (p.log s).length) hshow.symm⟩) rfl rfl (fun call hcall => ?_)
    (fun r T hsend => hsend.of_append hcalls rfl rfl fun call hcall args' reply' => ?_) rfl
  · have hl : (c.servers s).state = .leader := hl
    rw [hcand] at hl
    cases hl
  · rw [hcalls, List.mem_append] at hcall
    rcases hcall with hcall | hcall
    · exact Or.inl (h.calls call hcall)
    · obtain ⟨i, -, rfl⟩ := List.mem_map.1 hcall
      rw [hargs]
      right
      show (if s = s ∧ _ then _ else _) = _
      rw [if_pos ⟨rfl, rfl⟩, hs.backs.virtualLogIdx_eq]
      rfl
  · obtain ⟨i, -, rfl⟩ := List.mem_map.1 hcall
    exact nofun

/-! ## Leaders -/

/-- The leader of a term, while it is in that term, has the log recorded for it. -/
theorem lead_log (h : Sim covers c g p) {s : Fin n}
    (hg : g.leader (c.servers s).currentTerm = some s) :
    p.lead (c.servers s).currentTerm = some (s, p.log s) ∧ ¬ p.blind s := by
  have hlead := h.lead (c.servers s).currentTerm
  rw [hg] at hlead
  obtain ⟨⟨r, M⟩, hM, rfl⟩ := Option.map_eq_some_iff.1 hlead
  obtain ⟨hlog, hb⟩ := (h.inv.lead_own _ _ _ hM).2.2 (h.servers r).term
  exact ⟨hlog ▸ hM, hb⟩

/-- `Start` on a leader. -/
theorem start (h : Sim covers c g p) (he : Elected c g) {s : Fin n}
    (hl : (c.servers s).state = .leader) (command : C) {c' : Cluster n C} {ev : Event n C}
    (hc' : c' = (c.set s ((c.servers s).appendCommand command)).emit [ev])
    (hev : EventSim p ev) :
    ∃ p', p.Le p' ∧ Sim covers c' (g.observe c') p' := by
  have hs := h.servers s
  obtain ⟨hlead, hb⟩ := h.lead_log (he.led s hl)
  let e : LogEntry C := ⟨(c.servers s).currentTerm, command⟩
  let p' := p.append s (c.servers s).currentTerm (p.log s) e
  have hleads : p.Leads s (c.servers s).currentTerm (p.log s ++ [e]) :=
    h.inv.leads_concat hlead hs.term rfl
  have hle : p.Le p' := Proto.Le.append h.inv hleads
  have hlog : p'.log s = p.log s ++ [e] := by simp only [p', Proto.append, Function.update_self]
  have hlead' : p'.lead (c.servers s).currentTerm = some (s, p.log s ++ [e]) := by
    simp only [p', Proto.append, Function.update_self]
  subst hc'
  refine ⟨p', hle, h.update he ((c.servers s).appendCommand command)
    (h.inv.append hleads) hle
    (fun r hr => ⟨rfl, Function.update_of_ne hr _ _, rfl, rfl⟩) (fun T => ?_) (fun _ _ => rfl) h.own
    (fun _ => ⟨hl, rfl⟩) ?_ rfl (fun t ht args hargs => ?_)
    (fun call hcall => (h.calls call hcall).mono hle) (fun r T _ hs => hs)
    (fun _ i => (h.matched s (Or.inl hl) i).trans (hle.acked _ _)) fun ev' hev' => ?_⟩
  · by_cases hT : T = (c.servers s).currentTerm
    · rw [hT, hlead', hlead]
      rfl
    · simp only [p', Proto.append, Function.update_of_ne hT]
  · refine ⟨hs.term, ?_, hs.voted, hs.commit_base, ?_, ?_, fun i e' hi he' => ?_,
      fun msg hmsg => (hs.outgoing msg hmsg).mono hle, fun sh _ hnone => ?_⟩
    · rw [hlog]
      exact hs.backs.appendCommand hb command
    · rw [hlog, List.length_append]
      exact hs.commit_le.trans (Nat.le_add_right _ _)
    · show p'.Committed ((p'.log s).take (c.servers s).commitIndex) (c.servers s).currentTerm
      rw [hlog, List.take_append_of_le_length hs.commit_le]
      exact hs.committed.mono hle le_rfl
    · rw [hlog, List.getElem?_append_left (lt_of_lt_of_le hi hs.backs.base_le)] at he'
      exact hs.covered i e' hi he'
    · have hnone : p'.lead (c.servers s).currentTerm = none := hnone
      rw [hlead'] at hnone
      cases hnone
  · obtain ⟨L, hL⟩ := h.tasks t ht args hargs
    exact ⟨L, hL.mono hle⟩
  · rcases List.mem_append.1 hev' with hev' | hev'
    · exact Or.inl hev'
    · rw [List.mem_singleton.1 hev']
      exact Or.inr (hev.mono hle)

/-- The voters of a candidate have seen what it shows now. -/
theorem won (h : Sim covers c g p) {s : Fin n}
    (hnone : p.lead (c.servers s).currentTerm = none) {X : Finset (Fin n)} (hX : Majority X)
    (hvotes : ∀ q ∈ X, g.vote q (c.servers s).currentTerm = some s) :
    p.Won s (c.servers s).currentTerm ((c.servers s).lastShown, (p.log s).length) := by
  refine ⟨X, hX, fun q hq => ?_⟩
  have hv := h.vote q (c.servers s).currentTerm
  rw [hvotes q hq] at hv
  obtain ⟨⟨r, sh⟩, hsh, rfl⟩ := Option.map_eq_some_iff.1 hv
  have hown := h.own q _ r sh hsh
  rw [hsh, (h.servers r).shown sh hown hnone]

/-- A candidate that wins is not blind, and its log is the one it has shown. -/
theorem won_log (h : Sim covers c g p) {s : Fin n}
    (hnone : p.lead (c.servers s).currentTerm = none) {X : Finset (Fin n)} (hX : Majority X)
    (hvotes : ∀ q ∈ X, g.vote q (c.servers s).currentTerm = some s) :
    ¬ p.blind s ∧
      p.Won s (c.servers s).currentTerm (lastTerm (p.log s), (p.log s).length) := by
  have hwon := h.won hnone hX hvotes
  obtain ⟨hsee, hblind⟩ := (h.servers s).backs.lastShown_eq
  have hb : ¬ p.blind s := fun hb =>
    h.inv.not_blind_of_votes hwon hnone (h.servers s).term (hblind hb) hb
  exact ⟨hb, hsee hb ▸ hwon⟩

/-- Counting the last vote that is needed. -/
theorem win (h : Sim covers c g p) (he : Elected c g) {k : ℕ} {call : Call n C}
    (hk : c.calls[k]? = some call) {c' : Cluster n C}
    (hc' : c' = c.finishCall k call (c.servers call.caller).countVote)
    (he' : Elected c' (g.observe c'))
    (hmaj : n / 2 < (c.servers call.caller).voteCount + 1)
    (hfirst : g.leader (c.servers call.caller).currentTerm = none) {X : Finset (Fin n)}
    (hX : Majority X)
    (hvotes : ∀ q ∈ X, g.vote q (c.servers call.caller).currentTerm = some call.caller) :
    ∃ p', p.Le p' ∧ Sim covers c' (g.observe c') p' := by
  set s := call.caller with hcaller
  have hs := h.servers s
  have hnone : p.lead (c.servers s).currentTerm = none := by
    have := h.lead (c.servers s).currentTerm
    rwa [hfirst, Option.map_eq_none_iff] at this
  obtain ⟨hb, hwon⟩ := h.won_log hnone hX hvotes
  let p' := p.elect s (c.servers s).currentTerm
  have hleads := h.inv.leads_of_won (he.term_pos s) hs.term hb hnone hwon
  have hle : p.Le p' := Proto.Le.elect h.inv hleads
  have hlead' : p'.lead (c.servers s).currentTerm = some (s, p.log s) := by
    simp only [p', Proto.elect, Function.update_self]
  have hcount : (c.servers s).countVote =
      { c.servers s with
        voteCount := (c.servers s).voteCount + 1
        state := .leader
        nextIndex := fun _ => (c.servers s).virtualLogIdx (c.servers s).log.length
        matchIndex := fun _ => 0 } := if_pos hmaj
  have hself : c'.servers s = (c.servers s).countVote := by
    rw [hc', hcaller, Elected.finishCall_self]
  have hne : ∀ {r}, r ≠ s → c'.servers r = c.servers r := fun hr => by
    rw [hc', Elected.finishCall_of_ne hr]
  have hvote : (g.observe c').vote = g.vote := by
    rw [hc']
    exact he.observe_countVote
  have hcalls : c'.calls = c.calls.set k { call with waiting := false } := by rw [hc']; rfl
  have hsend : ∀ r T, c'.Sending r T → c.Sending r T := fun r T hs =>
    hs.of_set hk hcalls (by rw [hc']; rfl) (by rw [hc']; rfl) rfl rfl (fun hw => by cases hw)
      fun args reply hrpc => ⟨reply, hrpc⟩
  refine ⟨p', hle, ⟨h.inv.elect hleads, fun q T => ?_, fun T => ?_,
    h.own, fun r => ?_, fun t ht args hargs => ?_, fun call' hcall' => ?_, fun r hr i => ?_,
    fun ev hev => ?_⟩⟩
  · rw [hvote]
    exact h.vote q T
  · by_cases hT : T = (c.servers s).currentTerm
    · have hled := he'.led s (by rw [hself, hcount])
      rw [hself, countVote_term, ← hT] at hled
      rw [hled, hT, hlead']
      rfl
    · have hold : p'.lead T = p.lead T := by simp only [p', Proto.elect, Function.update_of_ne hT]
      have hsame : (g.observe c').leader T = g.leader T := by
        rw [hc']
        exact he.leader_counted_of_ne hT
      rw [hold, hsame]
      exact h.lead T
  · by_cases hr : r = s
    · have ho := hs.other hle rfl rfl rfl rfl
      rw [hr, hself, hcount]
      refine ⟨ho.term, ho.backs.of_sameLog ⟨rfl, rfl, rfl, rfl⟩, ho.voted, ho.commit_base,
        ho.commit_le, ho.committed, ho.covered, ho.outgoing, fun sh _ hn => ?_⟩
      have hn : p'.lead (c.servers s).currentTerm = none := hn
      rw [hlead'] at hn
      cases hn
    · rw [hne hr]
      exact (h.servers r).other hle rfl rfl rfl rfl
  · obtain ⟨L, hL⟩ := h.tasks t (by rw [hc'] at ht; exact ht) args hargs
    exact ⟨L, hL.mono hle⟩
  · have hrpc := h.calls call (List.mem_of_getElem? hk)
    rw [hcalls] at hcall'
    exact RpcSim.mono hle
      (h.calls_replace { call with waiting := false } hrpc call' hcall')
  · by_cases hrs : r = s
    · rw [hrs, hself, hcount]
      exact Nat.zero_le _
    · rw [hne hrs] at hr ⊢
      exact (h.matched r (hr.imp_right (hsend r _)) i).trans (hle.acked _ _)
  · rw [hc', Cluster.finishCall] at hev
    rcases List.mem_append.1 hev with hev | hev
    · exact (h.trace ev hev).mono hle
    · rw [Cluster.commitEvents, ← hcaller, hcount, if_neg (lt_irrefl _)] at hev
      cases hev

/-! ## What leaders send -/

/-- `doLeader` sends segments of the leader's log. -/
theorem appendSim (h : Sim covers c g p) (he : Elected c g) {s i : Fin n}
    (hl : (c.servers s).state = .leader) {args : AppendEntriesArgs n C}
    (hargs : (c.servers s).doLeaderFor i = some (i, .sendAppendEntries args)) :
    AppendSim p s args (p.log s) := by
  have hs := h.servers s
  obtain ⟨hlead, hb⟩ := h.lead_log (he.led s hl)
  obtain ⟨-, htask | ⟨prev, hprev, htask⟩⟩ := doLeaderFor_eq_some hargs
  · cases htask
  · obtain ⟨hbase, hlen, hterm⟩ := hs.backs.shown_eq hprev
    obtain ⟨hd, hlog, -⟩ := hs.backs.log
    cases htask
    have hent : (c.servers s).log.drop ((c.servers s).nextIndex i - 1 -
        (c.servers s).lastIncludedIndex + 1) = (p.log s).drop ((c.servers s).nextIndex i - 1) := by
      rw [hlog, List.drop_succ_cons, List.drop_drop, Nat.add_sub_cancel' hbase]
    refine ⟨⟨_, hlead, List.prefix_rfl⟩, ?_, hent, hterm.resolve_right fun hb' => hb hb'.1,
      hs.commit_le, hs.committed⟩
    simp only [hent, List.length_drop]
    omega

/-- A snapshot that a leader sends is a committed segment of its log. -/
theorem installSim (h : Sim covers c g p) (he : Elected c g) {s : Fin n}
    (hl : (c.servers s).state = .leader) {args : InstallSnapshotArgs n C}
    (hargs : (c.servers s).installSnapshotArgs = some args) :
    InstallSim p covers s args ((p.log s).take (c.servers s).lastIncludedIndex) := by
  have hs := h.servers s
  obtain ⟨hlead, -⟩ := h.lead_log (he.led s hl)
  obtain ⟨hT, -, hidx, hterm, hdata⟩ := installSnapshotArgs_eq_some hargs
  have hpre : (p.log s).take (c.servers s).lastIncludedIndex <+:
      (p.log s).take (c.servers s).commitIndex := List.take_prefix_take_left hs.commit_base
  refine ⟨⟨p.log s, hT ▸ hlead, List.take_prefix _ _⟩, ?_, ?_, ?_, fun i e hi => ?_⟩
  · rw [hidx, List.length_take, Nat.min_eq_left hs.backs.base_le]
  · rw [hterm, hidx, termAt_take le_rfl]
    exact hs.backs.base_term
  · rw [hT]
    exact hs.committed.of_isPrefix hpre
  · rw [List.getElem?_take] at hi
    split at hi
    · rename_i hlt
      rw [hdata]
      exact hs.covered i e hlt hi
    · cases hi

/-- Steps that leave all servers alone. -/
theorem idle (h : Sim covers c g p) (he : Elected c g) (hservers : c'.servers = c.servers)
    (htasks : ∀ t ∈ c'.tasks, ∀ args, t.task = .sendAppendEntries args →
      ∃ L, AppendSim p t.caller args L)
    (hcalls : ∀ call ∈ c'.calls, RpcSim p covers call.caller call.server call.rpc)
    (hsend : ∀ r T, c'.Sending r T → (c.servers r).state = .leader ∨ c.Sending r T)
    (htrace : c'.trace = c.trace) : Sim covers c' (g.observe c') p := by
  refine h.keep he h.inv (Proto.Le.refl p) (fun s hl => ?_) (fun _ => rfl) (fun _ _ _ => rfl) h.own
    (fun s => ?_) htasks hcalls (fun s hl => ?_) fun ev hev => Or.inl (htrace ▸ hev)
  · rw [hservers] at hl ⊢
    exact ⟨hl, rfl⟩
  · rw [hservers]
    exact h.servers s
  · rw [hservers] at hl ⊢
    exact h.matched s (hl.elim Or.inl (hsend s _))

/-- `doLeader` starts its goroutines. -/
theorem spawn (h : Sim covers c g p) (he : Elected c g) {s : Fin n}
    (hl : (c.servers s).state = .leader) {gs : List (Fin n × Task n C)}
    (hgs : (c.servers s).doLeader = some gs) :
    Sim covers (c.spawn s gs) (g.observe (c.spawn s gs)) p := by
  refine h.idle he rfl (fun t ht args hargs => ?_) h.calls (fun r T hs => ?_) rfl
  · rcases List.mem_append.1 ht with ht | ht
    · exact h.tasks t ht args hargs
    · obtain ⟨⟨i, task⟩, hi, rfl⟩ := List.mem_map.1 ht
      obtain ⟨-, hfor⟩ := doLeader_mem hgs hi
      have hargs : task = .sendAppendEntries args := hargs
      rw [hargs] at hfor
      exact ⟨_, h.appendSim he hl hfor⟩
  · rcases hs with hs | ⟨t, ht, hcaller, hrest⟩
    · exact Or.inr (Or.inl hs)
    · rcases List.mem_append.1 ht with ht | ht
      · exact Or.inr (Or.inr ⟨t, ht, hcaller, hrest⟩)
      · obtain ⟨⟨i, task⟩, -, rfl⟩ := List.mem_map.1 ht
        exact Or.inl (hcaller ▸ hl)

/-- A goroutine of a leader makes its call. -/
theorem runTask (h : Sim covers c g p) (he : Elected c g) {k : ℕ} {t : Spawned n C}
    (ht : t ∈ c.tasks) (htep : t.epoch = c.epoch t.caller)
    (hl : t.task = .handleInstallSnapshot → (c.servers t.caller).state = .leader) {rpc : Rpc n C}
    (hrpc : t.task.rpc (c.servers t.caller) = some rpc) {c' : Cluster n C}
    (hc' : c' = ({ c with tasks := c.tasks.eraseIdx k } : Cluster n C).call t.caller [t.server] rpc) :
    Sim covers c' (g.observe c') p := by
  subst hc'
  refine h.idle he rfl (fun t' ht' => h.tasks t' (List.mem_of_mem_eraseIdx ht'))
    (fun call hcall => ?_) (fun r T hs => ?_) rfl
  · rcases List.mem_append.1 hcall with hcall | hcall
    · exact h.calls call hcall
    · rw [List.map_cons, List.map_nil, List.mem_singleton] at hcall
      subst hcall
      cases htask : t.task with
      | sendAppendEntries args =>
        rw [htask] at hrpc
        cases hrpc
        exact ⟨h.tasks t ht args htask, nofun⟩
      | handleInstallSnapshot =>
        rw [htask] at hrpc
        obtain ⟨args, hargs, rfl⟩ := Option.map_eq_some_iff.1 hrpc
        exact ⟨_, h.installSim he (hl htask) hargs⟩
  · refine Or.inr ?_
    rcases hs with ⟨call, hcall, hw, hr, hep, args, reply, hargs, hT⟩ | ⟨t', ht', hrest⟩
    · rcases List.mem_append.1 hcall with hcall | hcall
      · exact Or.inl ⟨call, hcall, hw, hr, hep, args, reply, hargs, hT⟩
      · rw [List.map_cons, List.map_nil, List.mem_singleton] at hcall
        subst hcall
        subst hr
        have hargs : rpc = .appendEntries args reply := hargs
        rw [hargs] at hrpc
        exact Or.inr ⟨t, ht, rfl, htep, args, Task.eq_of_rpc hrpc, hT⟩
    · exact Or.inr ⟨t', List.mem_of_mem_eraseIdx ht', hrest⟩

/-- Some of a request is encoded. -/
theorem encode (h : Sim covers c g p) (he : Elected c g) {k : ℕ} {t : Spawned n C} {j : Option ℕ}
    (ht : c.tasks[k]? = some t) {c' : Cluster n C}
    (hc' : c' = { c with tasks := c.tasks.set k { t with encoded := j } }) :
    Sim covers c' (g.observe c') p := by
  subst hc'
  refine h.idle he rfl (fun t' ht' args hargs => ?_) h.calls (fun r T hs => Or.inr ?_) rfl
  · rcases List.mem_or_eq_of_mem_set ht' with ht' | rfl
    · exact h.tasks t' ht' args hargs
    · exact h.tasks t (List.mem_of_getElem? ht) args hargs
  · refine hs.imp_right fun ⟨t', ht', hrest⟩ => ?_
    rcases List.mem_or_eq_of_mem_set ht' with ht' | rfl
    · exact ⟨t', ht', hrest⟩
    · exact ⟨t, List.mem_of_getElem? ht, hrest⟩

/-- A call fails for its caller. -/
theorem lose (h : Sim covers c g p) (he : Elected c g) {k : ℕ} {call : Call n C}
    (hk : c.calls[k]? = some call) :
    Sim covers (c.loseCall k call) (g.observe (c.loseCall k call)) p := by
  have hold := h.calls call (List.mem_of_getElem? hk)
  refine h.idle he rfl h.tasks (fun call' hcall' => ?_) (fun r T hs => Or.inr ?_) rfl
  · rcases List.mem_append.1 hcall' with hcall' | hcall'
    · exact h.calls_replace { call with waiting := false } hold call' hcall'
    · obtain ⟨args, reply, hrpc, rfl⟩ := Call.again_mem hcall'
      rw [hrpc] at hold
      exact hold
  · let c₁ : Cluster n C := { c with calls := c.calls.set k { call with waiting := false } }
    have hcalls : (c.loseCall k call).calls = c₁.calls ++ call.again := rfl
    have hcalls₁ : c₁.calls = c.calls.set k { call with waiting := false } := rfl
    have hset : c₁.Sending r T := hs.of_append hcalls rfl rfl fun call' hcall' args' reply' => by
      obtain ⟨args, reply, -, rfl⟩ := Call.again_mem hcall'
      exact nofun
    exact hset.of_set hk hcalls₁ rfl rfl rfl rfl (fun hw => by cases hw)
      fun args reply hrpc => ⟨reply, hrpc⟩

/-! ## Commitment -/

/-- An index that `sendAppendEntries` finds on a majority is chosen. -/
theorem chosen_of_count (h : Sim covers c g p) {s : Fin n} (rf : Raft n C)
    (hlead : p.lead rf.currentTerm = some (s, p.log s)) (hb : ¬ p.blind s)
    (hme : rf.me = s) (hbacks : Backs (p.log s) (p.blind s) rf)
    (hmatch : ∀ i, rf.matchIndex i ≤ p.acked i rf.currentTerm) (hn : 2 ≤ n) {N k : ℕ}
    (hN : rf.lastIncludedIndex < N)
    (hk : n / 2 < k) (hcount : rf.countPeers N rf.otherPeers 1 = some k) :
    p.Chosen rf.currentTerm N (p.log s) := by
  rcases countPeers_eq_some hcount with hone | ⟨hle, e, he, hterm⟩
  · omega
  obtain ⟨-, hlen, hshown⟩ := hbacks.shown_eq he
  refine ⟨⟨⟨s, hlead⟩, by omega, hlen, ?_⟩, insert s (rf.holders N rf.otherPeers).toFinset, ?_, ?_⟩
  · rw [← hterm]
    exact (hshown.resolve_right fun hb' => hb hb'.1).symm
  · have hs : s ∉ (rf.holders N rf.otherPeers).toFinset := fun hs => by
      rw [List.mem_toFinset, holders, List.mem_filter, mem_otherPeers, hme] at hs
      exact hs.1 rfl
    refine majority_of_half_lt (k := k) (by rwa [Fintype.card_fin]) ?_
    have hnodup : (rf.holders N rf.otherPeers).Nodup := (nodup_otherPeers rf).filter _
    rw [Finset.card_insert_of_notMem hs, List.toFinset_card_of_nodup hnodup]
    omega
  · intro q hq
    rcases Finset.mem_insert.1 hq with rfl | hq
    · rw [(h.inv.lead_own _ _ _ hlead).2.1]
      exact hlen
    · rw [List.mem_toFinset, holders, List.mem_filter, decide_eq_true_eq] at hq
      exact hq.2.trans (hmatch q)

/-- A successful reply to `AppendEntries` is counted, and may advance `commitIndex`. -/
theorem commit (h : Sim covers c g p) (he : Elected c g) {k : ℕ} {call : Call n C}
    (hk : c.calls[k]? = some call) (hw : call.waiting = true)
    (hep : call.epoch = c.epoch call.caller) {args : AppendEntriesArgs n C}
    {reply : AppendEntriesReply} (hrpc : call.rpc = .appendEntries args (some reply))
    (hsucc : reply.success = true) (hle : (c.servers call.caller).currentTerm ≤ args.term)
    {rf : Raft n C}
    (hadv : ((c.servers call.caller).recordMatch call.server
      (args.prevLogIndex + args.entries.length)).advanceCommit
        (c.servers call.caller).lastLogIdx = some rf) :
    ∃ p', p.Le p' ∧ Sim covers (c.finishCall k call rf) (g.observe (c.finishCall k call rf)) p' := by
  have hmem := List.mem_of_getElem? hk
  have hok := he.calls call hmem
  have hcall := h.calls call hmem
  rw [hrpc] at hcall
  have hg : g.leader args.term = some call.caller := by
    have := hok.rpc
    rwa [hrpc] at this
  have hT : args.term = (c.servers call.caller).currentTerm :=
    le_antisymm (he.won _ _ hg).1 hle
  have hs := h.servers call.caller
  obtain ⟨hlead, hb⟩ := h.lead_log (hT ▸ hg)
  have hsending : c.Sending call.caller (c.servers call.caller).currentTerm :=
    Or.inl ⟨call, hmem, hw, rfl, hep, args, some reply, hrpc, hT⟩
  set rf₁ := (c.servers call.caller).recordMatch call.server
    (args.prevLogIndex + args.entries.length) with hrf₁
  have hmatch : ∀ i, rf₁.matchIndex i ≤ p.acked i rf₁.currentTerm := fun i => by
    show Function.update (c.servers call.caller).matchIndex _ _ i ≤
      p.acked i (c.servers call.caller).currentTerm
    by_cases hi : i = call.server
    · rw [hi, Function.update_self, ← hT]
      exact hcall.2 reply rfl hsucc
    · rw [Function.update_of_ne hi]
      exact h.matched _ (Or.inr hsending) i
  have hn : 2 ≤ n := by
    have := call.server.isLt
    have := call.caller.isLt
    have : call.server.val ≠ call.caller.val := fun hv => hok.ne (Fin.ext hv)
    omega
  rcases advanceCommit_cases hadv with rfl | ⟨N, hlt, -, hrf, k', hk', hcount⟩
  · exact h.receive_quiet he hk (Quiet.of_same ⟨rfl, rfl, rfl, rfl⟩ rfl rfl id)
      ⟨hs.commit_base, hs.commit_le, hs.committed⟩ rfl fun _ => hmatch
  · have hlt : (c.servers call.caller).commitIndex < N := hlt
    obtain ⟨ch, hch, hwoken⟩ := signal_eq { rf₁ with commitIndex := N }
    rw [hch] at hrf
    have hbase := hs.commit_base
    have hchosen := h.chosen_of_count rf₁ hlead hb (he.sound.me _)
      (hs.backs.of_sameLog ⟨rfl, rfl, rfl, rfl⟩) hmatch hn
      (show (c.servers call.caller).lastIncludedIndex < N by omega) hk' hcount
    subst hrf
    refine h.receive_quiet he hk (Quiet.of_same ⟨rfl, rfl, rfl, rfl⟩ rfl rfl id)
      ⟨?_, hchosen.1.2.2.1, Or.inr ⟨_, N, _, hchosen, le_rfl, ?_, List.take_prefix _ _⟩⟩
      (outgoing_of_woken hwoken rfl) fun _ => hmatch
    · exact hbase.trans hlt.le
    · rw [List.length_take]
      exact Nat.min_le_left _ _

end Sim

end DistSys
