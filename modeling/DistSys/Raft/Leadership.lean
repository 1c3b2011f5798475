import DistSys.Raft.Election

/-!
# The time of a leader

A leader has voted for itself (`SelfVoted`) and is the only leader of its term, so no handler makes
it a follower of the same term. What does is a refusal of its own vote request that comes back after
it has won: `sendRequestVote` does not look at the role then.

While a server leads, `matchIndex` is set by successful replies only, to what their requests cover
(`Progress`), in the order in which the replies are handled.

Main results: `leader_steps_down`, `matchIndex_mono`.
-/

namespace DistSys

open Raft

variable {n : ℕ} {C : Type} [Inhabited C]

/-! ## Calls -/

namespace Raft

/-- A call later on: its handler may have run, and its caller may no longer wait. -/
structure Call.Continues (call call' : Call n C) : Prop where
  caller : call'.caller = call.caller
  server : call'.server = call.server
  rpc : call'.rpc = call.rpc ∨ ∃ rf rf', call.rpc.handle rf = some (rf', call'.rpc)

theorem Call.Continues.refl (call : Call n C) : call.Continues call :=
  ⟨rfl, rfl, .inl rfl⟩

theorem Call.Continues.ask {call call' : Call n C} (h : call.Continues call') :
    call'.rpc.ask = call.rpc.ask := by
  rcases h.rpc with h | ⟨rf, rf', h⟩
  · rw [h]
  · rcases Rpc.handle_cases h with ⟨args, reply, h, h', -⟩ | ⟨args, reply, h, h', -⟩ | ⟨h, h', -⟩ |
      ⟨args, reply, h, h', -⟩ <;> rw [h, h'] <;> rfl

end Raft

namespace Cluster

variable {c c' : Cluster n C} {a : Action n C}

/-- No call is forgotten. -/
theorem Step.call_kept (h : Step c a c') {k : ℕ} {call : Call n C} (hk : c.calls[k]? = some call) :
    ∃ call', c'.calls[k]? = some call' ∧ call.Continues call' := by
  have happend : ∀ new : List (Call n C), (c.calls ++ new)[k]? = some call := fun new => by
    rw [List.getElem?_append_left (List.getElem?_eq_some_iff.1 hk).1, hk]
  have hset : ∀ {k₀ : ℕ} {call₀ : Call n C} (call₁ : Call n C), c.calls[k₀]? = some call₀ →
      call₀.Continues call₁ →
      ∃ call', (c.calls.set k₀ call₁)[k]? = some call' ∧ call.Continues call' := by
    intro k₀ call₀ call₁ hk₀ hcont
    by_cases hkk : k₀ = k
    · subst hkk
      rw [hk₀, Option.some.injEq] at hk
      subst hk
      exact ⟨call₁, List.getElem?_set_self (List.getElem?_eq_some_iff.1 hk₀).1, hcont⟩
    · exact ⟨call, by rw [List.getElem?_set_ne hkk, hk], .refl call⟩
  cases h with
  | preVote s hl => exact ⟨call, happend _, .refl call⟩
  | election s rf args hs h => exact ⟨call, happend _, .refl call⟩
  | runTask k g rpc hg hep hl hrpc => exact ⟨call, happend _, .refl call⟩
  | deliver k₀ call₀ rf rpc hk₀ h => exact hset _ hk₀ ⟨rfl, rfl, .inr ⟨_, _, h⟩⟩
  | receive k₀ call₀ rf hk₀ hw he h => exact hset _ hk₀ ⟨rfl, rfl, .inl rfl⟩
  | lose k₀ call₀ hk₀ he =>
    obtain ⟨call', hk', hcont⟩ := hset { call₀ with waiting := false } hk₀ ⟨rfl, rfl, .inl rfl⟩
    refine ⟨call', ?_, hcont⟩
    rw [loseCall, List.getElem?_append_left (List.getElem?_eq_some_iff.1 hk').1, hk']
  | _ => exact ⟨call, hk, .refl call⟩

/-- A server that asks for votes has voted for itself. -/
theorem Step.call_new (h : Step c a c') (hc : c.Sound) {k : ℕ} {call : Call n C}
    (hk : c'.calls[k]? = some call) (hlen : c.calls.length ≤ k) :
    call.rpc.ask = none ∨ (c'.servers call.caller).votedFor = some call.caller := by
  have hnew : ∀ {new : List (Call n C)}, (c.calls ++ new)[k]? = some call → call ∈ new := by
    intro new h
    rw [List.getElem?_append_right hlen] at h
    exact List.mem_of_getElem? h
  have hold : ∀ {calls : List (Call n C)}, calls.length = c.calls.length →
      calls[k]? ≠ some call := by
    intro calls hlength h
    exact absurd (List.getElem?_eq_some_iff.1 h).1 (by omega)
  cases h with
  | preVote s hl =>
    obtain ⟨q, -, rfl⟩ := List.mem_map.1 (hnew hk)
    exact .inl rfl
  | election s rf args hs h =>
    obtain ⟨q, -, rfl⟩ := List.mem_map.1 (hnew hk)
    obtain ⟨rfl, -⟩ := beginElection_eq_some h
    refine .inr ?_
    simp only [Cluster.call, Cluster.set, Function.update_self]
    exact congrArg some (hc.me s)
  | runTask k g rpc hg hep hl hrpc =>
    obtain ⟨q, -, rfl⟩ := List.mem_map.1 (hnew hk)
    unfold Task.rpc at hrpc
    split at hrpc
    · cases hrpc
      exact .inl rfl
    · obtain ⟨args, -, rfl⟩ := Option.map_eq_some_iff.1 hrpc
      exact .inl rfl
  | deliver k₀ call₀ rf rpc hk₀ h => exact absurd hk (hold (List.length_set ..))
  | receive k₀ call₀ rf hk₀ hw he h => exact absurd hk (hold (List.length_set ..))
  | lose k₀ call₀ hk₀ he =>
    rw [loseCall, List.getElem?_append_right (by rwa [List.length_set])] at hk
    obtain ⟨args, reply, -, rfl⟩ := Call.again_mem (List.mem_of_getElem? hk)
    exact .inl rfl
  | _ => exact absurd hk (hold rfl)

end Cluster

/-! ## Leaders have voted for themselves -/

namespace Raft

variable {rf rf' : Raft n C}

/-- Terms do not go down, and within a term a vote is kept. -/
theorem Move.vote (hm : Move rf rf') (hd : Durable rf) : rf.currentTerm ≤ rf'.currentTerm ∧
    ∀ q, rf.votedFor = some q → rf'.currentTerm = rf.currentTerm → rf'.votedFor = some q := by
  have hsteady : Steady rf rf' → rf.currentTerm ≤ rf'.currentTerm ∧
      ∀ q, rf.votedFor = some q → rf'.currentTerm = rf.currentTerm → rf'.votedFor = some q := by
    refine fun hst => ⟨hst.term_le, fun q hq hterm => ?_⟩
    rcases hst.vote hterm with hv | hv
    · rw [hq] at hv
      cases hv
    · rw [hv, hq]
  cases hm with
  | idle => exact ⟨le_rfl, fun q hq _ => hq⟩
  | start command hl => exact ⟨le_rfl, fun q hq _ => hq⟩
  | preVote hl => exact ⟨le_rfl, fun q hq _ => hq⟩
  | election =>
    have hterm : rf.campaign.currentTerm = rf.currentTerm + 1 := rfl
    exact ⟨by omega, fun q _ h => by omega⟩
  | handle rpc rpc' _ hr => exact hsteady (Rpc.calm_handle hr).toSteady
  | finish rpc server _ hr =>
    rcases Rpc.finish_calm hr with hcalm | ⟨args, reply, -, -, -, -, rfl⟩
    · exact hsteady hcalm.toSteady
    · rw [countVote_term, Elected.countVote_votedFor]
      exact ⟨le_rfl, fun q hq _ => hq⟩
  | commitChecker _ msg hr => exact hsteady (calm_commitChecker hr).toSteady
  | sendSnapshot k => exact ⟨le_rfl, fun q hq _ => hq⟩
  | snapshot index data _ hr => exact hsteady (calm_snapshot hr).toSteady
  | grow => exact ⟨le_rfl, fun q hq _ => hq⟩
  | crash => exact hsteady hd.steady_make

end Raft

/-- Who asks for votes in its term, or leads it, has voted for itself. -/
structure SelfVoted (c : Cluster n C) : Prop where
  asked : ∀ call ∈ c.calls, call.rpc.ask = some (c.servers call.caller).currentTerm →
    (c.servers call.caller).votedFor = some call.caller
  leads : ∀ s, (c.servers s).state = .leader → (c.servers s).votedFor = some s

namespace SelfVoted

variable {c c' : Cluster n C} {a : Action n C} {g : History n}

theorem init : SelfVoted (Cluster.init : Cluster n C) where
  asked _ h := absurd h List.not_mem_nil
  leads s hl := by
    have hfollower : ((Cluster.init : Cluster n C).servers s).state = .follower := make_state s {}
    cases hfollower.symm.trans hl

theorem step (hv : SelfVoted c) (hi : Elected c g) (hstep : c.step a = some c') :
    SelfVoted c' := by
  obtain ⟨c₀, hcase, rfl⟩ := Cluster.step_cases hstep
  have hmove := fun s => (hcase.move hi.sound s).vote (hi.sound.durable s)
  refine ⟨fun call' hmem hask => ?_, fun s hl => ?_⟩
  · obtain ⟨k, hk⟩ := List.mem_iff_getElem?.1 hmem
    by_cases hlen : k < c.calls.length
    · obtain ⟨call₁, hk₁, hcont⟩ := hcase.call_kept (List.getElem?_eq_getElem hlen)
      obtain rfl : call₁ = call' := Option.some.inj (hk₁.symm.trans hk)
      rw [hcont.ask, hcont.caller] at hask
      rw [hcont.caller]
      -- The request is not ahead of its sender, so the term is the same.
      have hle := (hi.calls _ (List.getElem_mem hlen)).ask_le _ hask
      have hterm := Int.le_antisymm hle (hmove _).1
      rw [hterm] at hask
      exact (hmove _).2 _ (hv.asked _ (List.getElem_mem hlen) hask) hterm
    · rcases hcase.call_new hi.sound hk (Nat.not_lt.1 hlen) with hnone | hvoted
      · cases hnone.symm.trans hask
      · exact hvoted
  · rcases hi.leader_cases hcase hl with ⟨hl, hterm⟩ |
      ⟨k, call, args, reply, -, hk, rfl, -, -, hrpc, hargs, -, -, -, hterm⟩
    · exact (hmove s).2 s (hv.leads s hl) hterm
    · refine (hmove _).2 _ (hv.asked call (List.mem_of_getElem? hk) ?_) hterm
      rw [hrpc, hargs]
      rfl

end SelfVoted

/-! ## Stepping down -/

namespace Raft

variable {rf rf' : Raft n C}

/-- The requests that make a leader a follower of the same term. -/
theorem handle_leader {rpc rpc' : Rpc n C} (hr : rpc.handle rf = some (rf', rpc'))
    (hl : rf.state = .leader) (hvote : rf.votedFor = some rf.me) (hl' : rf'.state ≠ .leader) :
    rf.currentTerm < rf'.currentTerm ∨
      (∃ args, rpc = .requestVote args none ∧ args.candidateId = rf.me) ∨
      ∃ args, rpc = .installSnapshot args none ∧ args.term = rf.currentTerm := by
  have hadopt : ∀ t, (rf.adoptTerm t).state ≠ .leader →
      rf.currentTerm < (rf.adoptTerm t).currentTerm := by
    intro t h
    unfold adoptTerm at h ⊢
    split at h
    · rename_i hlt
      rw [if_pos hlt]
      exact hlt
    · exact absurd hl h
  rcases Rpc.handle_cases hr with ⟨args, reply, rfl, -, hr⟩ | ⟨args, reply, rfl, -, hr⟩ |
    ⟨-, -, rfl⟩ | ⟨args, reply, rfl, -, hr⟩
  · refine .inl ?_
    rcases appendEntries_cases hr with ⟨rfl, -⟩ | ⟨-, -, rfl⟩ | ⟨-, -, -, rfl⟩
    · exact absurd hl hl'
    · exact hadopt args.term hl'
    · obtain ⟨ch, hch, -⟩ := acceptEntries_eq (rf.adoptTerm args.term) args
      rw [hch] at hl' ⊢
      exact hadopt args.term hl'
  · rcases requestVote_cases hr with ⟨rfl, -⟩ | ⟨hlt, rfl, -⟩ | ⟨hle, hfree, -, rfl, -⟩
    · exact absurd hl hl'
    · exact .inl hlt
    · rcases Int.lt_or_eq_of_le hle with hlt | heq
      · exact .inl hlt
      · have hcand := (hfree heq.symm).resolve_left (by rw [hvote]; exact Option.some_ne_none _)
        exact .inr (.inl ⟨args, rfl, Option.some.inj (hcand.symm.trans hvote)⟩)
  · exact absurd hl hl'
  · have hcases := installSnapshot_cases rf args
    rw [hr] at hcases
    rcases hcases with rfl | ⟨hle, rfl⟩
    · exact absurd hl hl'
    · rcases Int.lt_or_eq_of_le hle with hlt | heq
      · exact .inl hlt
      · exact .inr (.inr ⟨args, rfl, heq.symm⟩)

/-- The replies that make a leader a follower of the same term. -/
theorem finish_leader {rpc : Rpc n C} {server : Fin n} (hr : rpc.finish rf server = some rf')
    (hl : rf.state = .leader) (hl' : rf'.state ≠ .leader) :
    rf.currentTerm < rf'.currentTerm ∨
      ∃ args reply, rpc = .requestVote args (some reply) ∧ rf.currentTerm = args.term ∧
        reply.voteGranted = false := by
  rcases Rpc.finish_cases hr with ⟨args, reply, -, hr⟩ | ⟨args, reply, hrpc, rfl⟩ |
    ⟨reply, -, rfl⟩ | ⟨args, reply, -, rfl⟩
  · rcases sendAppendEntries_cases hr with ⟨next, rfl⟩ | ⟨hlt, rfl⟩ | ⟨-, -, hr⟩
    · exact absurd hl hl'
    · exact .inl hlt
    · obtain ⟨N, ch, rfl, -⟩ := advanceCommit_frame hr
      exact absurd hl hl'
  · rcases sendRequestVote_cases rf args reply with h | ⟨hterm, hrefused, -⟩ | ⟨-, -, -, h⟩
    · rw [h] at hl'
      exact absurd hl hl'
    · exact .inr ⟨args, reply, hrpc, hterm, hrefused⟩
    · rw [h, countVote] at hl'
      split at hl'
      · exact absurd rfl hl'
      · exact absurd hl hl'
  · rcases sendPreVote_cases rf reply with h | ⟨hpre, -⟩
    · rw [h] at hl'
      exact absurd hl hl'
    · cases hl.symm.trans hpre
  · rcases handleInstallSnapshot_cases rf server reply with ⟨next, h⟩ | ⟨hlt, h⟩
    · rw [h] at hl'
      exact absurd hl hl'
    · rw [h]
      exact .inl hlt

end Raft

namespace Cluster

variable {c c' : Cluster n C} {a : Action n C}

/-- No leader handles a refusal of its vote request for the term that it leads. -/
def NoLateRefusal (c : Cluster n C) : Action n C → Prop
  | .receive k => ∀ call ∈ c.calls[k]?, ∀ args reply, call.rpc = .requestVote args (some reply) →
      reply.voteGranted = false → (c.servers call.caller).state = .leader →
      (c.servers call.caller).currentTerm ≠ args.term
  | _ => True

/-- The step of one server decides. -/
theorem set_leader_down {r : Fin n} {rf : Raft n C}
    (h : (c.servers r).state = .leader → rf.state ≠ .leader →
      (c.servers r).currentTerm < rf.currentTerm) (s : Fin n) (hl : (c.servers s).state = .leader)
    (hl' : ((c.set r rf).servers s).state ≠ .leader) :
    (c.servers s).currentTerm < ((c.set r rf).servers s).currentTerm :=
  forall_set (P := fun q rf => (c.servers q).state = .leader → rf.state ≠ .leader →
    (c.servers q).currentTerm < rf.currentTerm) (fun _ hl hl' => absurd hl hl') h s hl hl'

/-- No request makes a leader a follower of the same term. -/
theorem deliver_leader_down {g : History n} (hi : Elected c g) (hv : SelfVoted c) {call : Call n C}
    (hcall : call ∈ c.calls) {rf : Raft n C} {rpc : Rpc n C}
    (h : call.rpc.handle (c.servers call.server) = some (rf, rpc))
    (hl : (c.servers call.server).state = .leader) (hl' : rf.state ≠ .leader) :
    (c.servers call.server).currentTerm < rf.currentTerm := by
  have hok := hi.calls call hcall
  have hme := hi.sound.me call.server
  have hvote := hv.leads _ hl
  rcases handle_leader h hl (by rw [hvote, hme]) hl' with hlt | ⟨args, hrpc, hcand⟩ |
    ⟨args, hrpc, hterm⟩
  · exact hlt
  · -- A server does not ask itself for its vote.
    have hself := hok.rpc
    rw [hrpc] at hself
    rw [hself.1, hme] at hcand
    exact absurd hcand.symm hok.ne
  · -- Snapshots of this term come from its leader, which is this server.
    have hleads := hok.rpc
    rw [hrpc] at hleads
    exact absurd hterm.symm (hi.term_ne_of_leader hleads hok.ne hl)

theorem step_leader_down {g : History n} (hi : Elected c g) (hv : SelfVoted c)
    (hstep : c.step a = some c') {s : Fin n} (hcrash : a ≠ .crash s) (hrefusal : c.NoLateRefusal a)
    (hl : (c.servers s).state = .leader) (hl' : (c'.servers s).state ≠ .leader) :
    (c.servers s).currentTerm < (c'.servers s).currentTerm := by
  obtain ⟨c₀, hcase, rfl⟩ := step_cases hstep
  cases hcase with
  | start r command _ =>
    refine set_leader_down (fun hl hl' => ?_) s hl hl'
    exact absurd hl hl'
  | preVote r hr => exact set_leader_down (fun hl _ => absurd hl hr) s hl hl'
  | election r rf args hr h =>
    exact set_leader_down (fun hl _ => Role.noConfusion (hl.symm.trans hr)) s hl hl'
  | deliver k call rf rpc hk h =>
    exact set_leader_down (deliver_leader_down hi hv (List.mem_of_getElem? hk) h) s hl hl'
  | receive k call rf hk hw he h =>
    refine set_leader_down (fun hl hl' => ?_) s hl hl'
    rcases finish_leader h hl hl' with hlt | ⟨args, reply, hrpc, hterm, hrefused⟩
    · exact hlt
    · exact absurd hterm (hrefusal call hk args reply hrpc hrefused hl)
  | commitChecker r rf msg h =>
    refine set_leader_down (fun hl hl' => ?_) s hl hl'
    obtain ⟨ch, applied, rfl⟩ := commitChecker_frame h
    exact absurd hl hl'
  | sendSnapshot r k msg h =>
    refine set_leader_down (fun hl hl' => ?_) s hl hl'
    exact absurd hl hl'
  | snapshot r index data rf h =>
    refine set_leader_down (fun hl hl' => ?_) s hl hl'
    rcases snapshot_cases h with rfl | ⟨-, -, e, -, rfl⟩ <;> exact absurd hl hl'
  | grow r =>
    refine set_leader_down (fun hl hl' => ?_) s hl hl'
    exact absurd hl hl'
  | crash r =>
    have hne : s ≠ r := fun h => hcrash (h ▸ rfl)
    refine absurd hl fun hl => hl' ?_
    simp only [refresh, restart, emit, set, Function.update_of_ne hne]
    exact hl
  | _ => exact absurd hl hl'

end Cluster

/-- Every reachable state has a history, and its leaders have voted for themselves. -/
theorem exists_selfVoted {c : Cluster n C} {as : List (Action n C)}
    (h : run Cluster.step Cluster.init as = some c) : ∃ g, Elected c g ∧ SelfVoted c :=
  run_invariant (P := fun c => ∃ g, Elected c g ∧ SelfVoted c)
    (fun _ _ c' ⟨g, hg, hv⟩ hstep => ⟨g.observe c', hg.step hstep, hv.step hg hstep⟩) h
    ⟨_, Elected.init, SelfVoted.init⟩

/-- **A leader steps down only for a newer term**, unless it crashes or handles a late refusal of
its vote request. -/
theorem leader_steps_down {c c' : Cluster n C} {as : List (Action n C)}
    (h : run Cluster.step Cluster.init as = some c) {a : Action n C} (hstep : c.step a = some c')
    {s : Fin n} (hcrash : a ≠ .crash s) (hrefusal : c.NoLateRefusal a)
    (hl : (c.servers s).state = .leader) (hl' : (c'.servers s).state ≠ .leader) :
    (c.servers s).currentTerm < (c'.servers s).currentTerm := by
  obtain ⟨g, hi, hv⟩ := exists_selfVoted h
  exact Cluster.step_leader_down hi hv hstep hcrash hrefusal hl hl'

/-- Servers 0 and 2 of three campaign in term 2; server 0 is the leader with the vote of server 1,
and the refusal of server 2 is on its way. -/
def contestedElection : List (Action 3 C) :=
  [.timeout 0, .deliver 0, .receive 0, .timeout 2, .deliver 2, .receive 2, .timeout 0, .timeout 2,
    .deliver 5, .deliver 4, .receive 4]

/-- Server 1 campaigns next, in term 3, and the leader of term 2 hears of it. -/
def nextElection : List (Action 3 C) :=
  contestedElection ++ ([.timeout 1, .deliver 8, .receive 8, .timeout 1] : List (Action 3 C))

theorem leader_steps_down_nextElection :
    ∃ c c' : Cluster 3 ℕ, run Cluster.step Cluster.init nextElection = some c ∧
      c.step (.deliver 10) = some c' ∧ (c.servers 0).state = .leader ∧
      (c'.servers 0).state ≠ .leader ∧
      (c.servers 0).currentTerm < (c'.servers 0).currentTerm := by
  have h : ∃ c : Cluster 3 ℕ, run Cluster.step Cluster.init nextElection = some c ∧
      (c.servers 0).state = .leader ∧ ∃ c', c.step (.deliver 10) = some c' ∧
      (c'.servers 0).state ≠ .leader := by
    decide +kernel
  obtain ⟨c, hc, hl, c', hstep, hl'⟩ := h
  exact ⟨c, c', hc, hstep, hl, hl',
    leader_steps_down hc hstep (by decide) trivial hl hl'⟩

/-- The refusal makes the leader a follower of the term that it leads. -/
theorem leader_steps_down_fails :
    ∃ c c' : Cluster 3 ℕ, run Cluster.step Cluster.init contestedElection = some c ∧
      c.step (.receive 5) = some c' ∧ (c.servers 0).state = .leader ∧
      (c'.servers 0).state = .follower ∧
      (c'.servers 0).currentTerm = (c.servers 0).currentTerm := by
  have h : ∃ c : Cluster 3 ℕ, run Cluster.step Cluster.init contestedElection = some c ∧
      (c.servers 0).state = .leader ∧ ∃ c', c.step (.receive 5) = some c' ∧
      (c'.servers 0).state = .follower ∧
      (c'.servers 0).currentTerm = (c.servers 0).currentTerm := by
    decide +kernel
  obtain ⟨c, hc, hl, c', hstep, hl', hterm⟩ := h
  exact ⟨c, c', hc, hstep, hl, hl', hterm⟩

/-! ## Progress of the followers -/

/-- A successful reply of `peer` to a request of `leader` in `term`, which covers the log up to
`matched`. -/
structure Progress (n : ℕ) where
  leader : Fin n
  peer : Fin n
  term : ℤ
  matched : ℕ
  deriving DecidableEq

namespace Raft

def Call.progress (call : Call n C) : Option (Progress n) :=
  match call.rpc with
  | .appendEntries args (some reply) =>
    if reply.success then
      some ⟨call.caller, call.server, args.term, args.prevLogIndex + args.entries.length⟩
    else none
  | _ => none

theorem Call.Continues.progress {call call' : Call n C} (h : call.Continues call') {p : Progress n}
    (hp : call.progress = some p) : call'.progress = some p := by
  have hrpc : call'.rpc = call.rpc := by
    rcases h.rpc with heq | ⟨rf, rf', hr⟩
    · exact heq
    · -- A call that has a reply is not handled again.
      unfold Call.progress at hp
      split at hp
      · rename_i hrpc
        rw [hrpc] at hr
        cases hr
      · cases hp
  rw [← hp, Call.progress, Call.progress, hrpc, h.caller, h.server]

variable {rf rf' : Raft n C}

/-- A leader after the step led before, and its `matchIndex` is the same. -/
def KeepsMatch (rf rf' : Raft n C) : Prop :=
  rf'.state = .leader →
    rf.state = .leader ∧ rf'.currentTerm = rf.currentTerm ∧ rf'.matchIndex = rf.matchIndex

theorem Steady.keepsMatch (h : Steady rf rf') (hm : rf'.matchIndex = rf.matchIndex) :
    KeepsMatch rf rf' :=
  fun hl => ⟨(h.leader hl).1, (h.leader hl).2, hm⟩

theorem keepsMatch_handle {rpc rpc' : Rpc n C} (hr : rpc.handle rf = some (rf', rpc')) :
    KeepsMatch rf rf' := by
  refine (Rpc.calm_handle hr).toSteady.keepsMatch ?_
  rcases Rpc.handle_cases hr with ⟨args, reply, -, -, hr⟩ | ⟨args, reply, -, -, hr⟩ | ⟨-, -, rfl⟩ |
    ⟨args, reply, -, -, hr⟩
  · have hadopt : (rf.adoptTerm args.term).matchIndex = rf.matchIndex := by
      unfold adoptTerm
      split <;> rfl
    rcases appendEntries_cases hr with ⟨rfl, -⟩ | ⟨-, -, rfl⟩ | ⟨-, -, -, rfl⟩
    · rfl
    · exact hadopt
    · obtain ⟨ch, hch, -⟩ := acceptEntries_eq (rf.adoptTerm args.term) args
      rw [hch]
      exact hadopt
  · rcases requestVote_cases hr with ⟨rfl, -⟩ | ⟨-, rfl, -⟩ | ⟨-, -, -, rfl, -⟩ <;> rfl
  · rfl
  · have hcases := installSnapshot_cases rf args
    rw [hr] at hcases
    rcases hcases with rfl | ⟨-, rfl⟩ <;> rfl

/-- `matchIndex` changes with a successful reply, or with the vote that makes a leader. -/
theorem finish_matchIndex {rpc : Rpc n C} {server : Fin n} (hr : rpc.finish rf server = some rf') :
    KeepsMatch rf rf' ∨
    (∃ args reply, rpc = .appendEntries args (some reply) ∧ reply.success = true ∧
      rf.currentTerm ≤ args.term ∧ rf'.state = rf.state ∧ rf'.currentTerm = rf.currentTerm ∧
      rf'.matchIndex =
        Function.update rf.matchIndex server (args.prevLogIndex + args.entries.length)) ∨
    ∃ args reply, rpc = .requestVote args (some reply) ∧ rf.currentTerm = args.term ∧
      reply.voteGranted = true ∧ rf.voteCount ≤ n / 2 ∧ rf' = rf.countVote := by
  rcases Rpc.finish_cases hr with ⟨args, reply, hrpc, hr⟩ | ⟨args, reply, hrpc, rfl⟩ |
    ⟨reply, -, rfl⟩ | ⟨args, reply, -, rfl⟩
  · have hsteady := (calm_sendAppendEntries hr).toSteady
    rcases sendAppendEntries_cases hr with ⟨next, rfl⟩ | ⟨-, rfl⟩ | ⟨hsuccess, hle, hr⟩
    · exact .inl (hsteady.keepsMatch rfl)
    · exact .inl (hsteady.keepsMatch rfl)
    · obtain ⟨N, ch, rfl, -⟩ := advanceCommit_frame hr
      exact .inr (.inl ⟨args, reply, hrpc, hsuccess, hle, rfl, rfl, rfl⟩)
  · rcases sendRequestVote_cases rf args reply with h | ⟨-, -, h⟩ | ⟨hterm, hg, hcount, h⟩
    · rw [h]
      exact .inl fun hl => ⟨hl, rfl, rfl⟩
    · rw [h]
      exact .inl nofun
    · exact .inr (.inr ⟨args, reply, hrpc, hterm, hg, hcount, h⟩)
  · refine .inl ((calm_sendPreVote rf reply).toSteady.keepsMatch ?_)
    rcases sendPreVote_cases rf reply with h | ⟨-, r, -, h⟩ <;> rw [h]
  · refine .inl ((calm_handleInstallSnapshot rf server reply).toSteady.keepsMatch ?_)
    rcases handleInstallSnapshot_cases rf server reply with ⟨next, h⟩ | ⟨-, h⟩
    · rw [h]
    · rw [h]
      rfl

end Raft

namespace Cluster

variable {c c' : Cluster n C} {a b : Action n C} {g : History n}

/-- What the action tells a leader, if it handles a successful reply. -/
def progress (c : Cluster n C) : Action n C → Option (Progress n)
  | .receive k => c.calls[k]?.bind Call.progress
  | _ => none

theorem progress_step (hstep : c.step a = some c') {p : Progress n} (h : c.progress b = some p) :
    c'.progress b = some p := by
  unfold progress at h ⊢
  split at h
  · obtain ⟨call, hk, hp⟩ := Option.bind_eq_some_iff.1 h
    obtain ⟨c₀, hcase, rfl⟩ := step_cases hstep
    obtain ⟨call', hk', hcont⟩ := hcase.call_kept hk
    simp only [refresh, hk', Option.bind_some]
    exact hcont.progress hp
  · cases h

theorem progress_run {as : List (Action n C)} (hrun : run step c as = some c') {p : Progress n}
    (h : c.progress b = some p) : c'.progress b = some p :=
  run_invariant (P := fun c => c.progress b = some p) (fun _ _ _ h hs => progress_step hs h) hrun h

theorem set_keepsMatch {r : Fin n} {rf : Raft n C} (h : KeepsMatch (c.servers r) rf) (s : Fin n) :
    KeepsMatch (c.servers s) ((c.set r rf).servers s) :=
  forall_set (P := fun q rf => KeepsMatch (c.servers q) rf) (fun _ hl => ⟨hl, rfl, rfl⟩) h s

/-- Only the handling of a reply changes the `matchIndex` of a leader. -/
theorem step_keepsMatch (hstep : c.step a = some c') :
    (∀ s, KeepsMatch (c.servers s) (c'.servers s)) ∨
      ∃ k call rf, a = .receive k ∧ c.calls[k]? = some call ∧ call.waiting = true ∧
        call.epoch = c.epoch call.caller ∧
        call.rpc.finish (c.servers call.caller) call.server = some rf ∧
        c'.servers = (c.finishCall k call rf).servers := by
  obtain ⟨c₀, hcase, rfl⟩ := step_cases hstep
  cases hcase with
  | start r command _ => exact .inl (set_keepsMatch fun hl => ⟨hl, rfl, rfl⟩)
  | preVote r hr => exact .inl (set_keepsMatch nofun)
  | election r rf args hr h =>
    obtain ⟨rfl, -⟩ := beginElection_eq_some h
    exact .inl (set_keepsMatch fun hl => Role.noConfusion (hr.symm.trans hl))
  | deliver k call rf rpc hk h => exact .inl (set_keepsMatch (keepsMatch_handle h))
  | receive k call rf hk hw he h => exact .inr ⟨k, call, rf, rfl, hk, hw, he, h, rfl⟩
  | commitChecker r rf msg h =>
    obtain ⟨ch, applied, rfl⟩ := commitChecker_frame h
    exact .inl (set_keepsMatch fun hl => ⟨hl, rfl, rfl⟩)
  | sendSnapshot r k msg h => exact .inl (set_keepsMatch fun hl => ⟨hl, rfl, rfl⟩)
  | snapshot r index data rf h =>
    rcases snapshot_cases h with rfl | ⟨-, -, e, -, rfl⟩ <;>
      exact .inl (set_keepsMatch fun hl => ⟨hl, rfl, rfl⟩)
  | grow r => exact .inl (set_keepsMatch fun hl => ⟨hl, rfl, rfl⟩)
  | crash r =>
    refine .inl (set_keepsMatch fun hl => ?_)
    rw [make_state] at hl
    cases hl
  | _ => exact .inl fun s hl => ⟨hl, rfl, rfl⟩

/-- A leader `s` after the action has just been elected, or led before and keeps `matchIndex` or
records the progress that it is told of. -/
def NextMatch (c : Cluster n C) (a : Action n C) (s : Fin n) (rf : Raft n C) : Prop :=
  (c.servers s).state ≠ .leader ∧ (∀ i, rf.matchIndex i = 0) ∨
    (c.servers s).state = .leader ∧ rf.currentTerm = (c.servers s).currentTerm ∧
      (rf.matchIndex = (c.servers s).matchIndex ∨
        ∃ i m, c.progress a = some ⟨s, i, (c.servers s).currentTerm, m⟩ ∧
          rf.matchIndex = Function.update (c.servers s).matchIndex i m)

theorem nextMatch_of_keepsMatch {s : Fin n} {rf : Raft n C} (h : KeepsMatch (c.servers s) rf)
    (hl : rf.state = .leader) : c.NextMatch a s rf :=
  .inr ⟨(h hl).1, (h hl).2.1, .inl (h hl).2.2⟩

theorem step_matchIndex (hi : Elected c g) (hstep : c.step a = some c') {s : Fin n}
    (hl : (c'.servers s).state = .leader) : c.NextMatch a s (c'.servers s) := by
  rcases step_keepsMatch hstep with h | ⟨k, call, rf, rfl, hk, hw, he, h, hservers⟩
  · exact nextMatch_of_keepsMatch (h s) hl
  rw [hservers] at hl ⊢
  by_cases hs : s = call.caller
  swap
  · rw [Elected.finishCall_of_ne hs] at hl ⊢
    exact .inr ⟨hl, rfl, .inl rfl⟩
  subst hs
  rw [Elected.finishCall_self] at hl ⊢
  rcases finish_matchIndex h with hkeep | ⟨args, reply, hrpc, hsuccess, hle, hstate, hterm, hmatch⟩ |
    ⟨args, reply, hrpc, hterm, hg, hcount, rfl⟩
  · exact nextMatch_of_keepsMatch hkeep hl
  · -- The request is one of the term that the server leads.
    have hled := (hi.calls call (List.mem_of_getElem? hk)).rpc
    rw [hrpc] at hled
    have heq : (c.servers call.caller).currentTerm = args.term :=
      Int.le_antisymm hle (hi.won _ _ hled).1
    refine .inr ⟨hstate ▸ hl, hterm, .inr ⟨call.server, _, ?_, hmatch⟩⟩
    simp only [progress, hk, Option.bind_some, Call.progress, hrpc, hsuccess, if_true, heq]
  · have hopen := hi.open_vote hk hw he hrpc hterm hg
    have hnew : (c.servers call.caller).state ≠ .leader := by
      intro hleads
      have hspent := hi.spent _ _ _ hopen.1 (hi.led _ hleads)
      omega
    refine .inl ⟨hnew, fun i => ?_⟩
    rw [countVote] at hl ⊢
    split at hl
    · rename_i hmaj
      rw [if_pos hmaj]
    · exact absurd hl hnew

/-- What the leaders know has been told them by the actions `as`. -/
def Recorded (as : List (Action n C)) (c : Cluster n C) : Prop :=
  ∀ s i, (c.servers s).state = .leader → (c.servers s).matchIndex i = 0 ∨
    ∃ b ∈ as,
      c.progress b = some ⟨s, i, (c.servers s).currentTerm, (c.servers s).matchIndex i⟩

theorem Recorded.step {as : List (Action n C)} (h : Recorded as c) (hi : Elected c g)
    (hstep : c.step a = some c') : Recorded (as ++ [a]) c' := by
  intro s i hl
  rcases step_matchIndex hi hstep hl with ⟨-, hzero⟩ | ⟨hl, hterm, hmatch⟩
  · exact .inl (hzero i)
  rw [hterm]
  have hold : (c'.servers s).matchIndex i = (c.servers s).matchIndex i →
      (c'.servers s).matchIndex i = 0 ∨ ∃ b ∈ as ++ [a],
        c'.progress b = some ⟨s, i, (c.servers s).currentTerm, (c'.servers s).matchIndex i⟩ := by
    intro heq
    rw [heq]
    refine (h s i hl).imp_right ?_
    rintro ⟨b, hb, hp⟩
    exact ⟨b, List.mem_append_left _ hb, progress_step hstep hp⟩
  rcases hmatch with heq | ⟨j, m, hp, heq⟩
  · exact hold (congrFun heq i)
  · by_cases hij : i = j
    · subst hij
      rw [heq, Function.update_self]
      exact .inr ⟨a, List.mem_append_right _ (List.mem_singleton_self a), progress_step hstep hp⟩
    · exact hold (by rw [heq, Function.update_of_ne hij])

/-- Of two successful replies of the peer `i` to the leader `s` of the term `T`, the one handled
later does not cover less of the log. -/
def InOrder (c : Cluster n C) (s i : Fin n) (T : ℤ) (a b : Action n C) : Prop :=
  ∀ p ∈ c.progress a, ∀ q ∈ c.progress b, p = ⟨s, i, T, p.matched⟩ → q = ⟨s, i, T, q.matched⟩ →
    p.matched ≤ q.matched

instance (s i : Fin n) (T : ℤ) : DecidableRel (c.InOrder s i T) := fun a b =>
  inferInstanceAs (Decidable (∀ p ∈ c.progress a, ∀ q ∈ c.progress b, _ → _ → _))

theorem InOrder.of_run {as : List (Action n C)} (hrun : run step c as = some c') {s i : Fin n}
    {T : ℤ} (h : c'.InOrder s i T a b) : c.InOrder s i T a b :=
  fun p hp q hq => h p (progress_run hrun hp) q (progress_run hrun hq)

/-- The server leads the term. -/
def Leads (c : Cluster n C) (s : Fin n) (T : ℤ) : Prop :=
  (c.servers s).state = .leader ∧ (c.servers s).currentTerm = T

instance {s : Fin n} {T : ℤ} : Decidable (c.Leads s T) := inferInstanceAs (Decidable (_ ∧ _))

/-- One step, when the replies handled so far and the one handled now are in order. -/
theorem Recorded.matchIndex_le {as : List (Action n C)} (h : Recorded as c) (hi : Elected c g)
    (hstep : c.step a = some c') {s i : Fin n}
    (horder : ∀ b ∈ as, c.InOrder s i (c.servers s).currentTerm b a)
    (hl : (c.servers s).state = .leader) (hl' : (c'.servers s).state = .leader) :
    (c.servers s).matchIndex i ≤ (c'.servers s).matchIndex i := by
  rcases step_matchIndex hi hstep hl' with ⟨hnew, -⟩ | ⟨-, -, heq | ⟨j, m, hp, heq⟩⟩
  · exact absurd hl hnew
  · rw [heq]
  · rw [heq]
    by_cases hij : i = j
    · subst hij
      rw [Function.update_self]
      rcases h s i hl with hzero | ⟨b, hb, hold⟩
      · rw [hzero]
        exact Nat.zero_le m
      · exact horder b hb _ hold _ hp rfl rfl
    · rw [Function.update_of_ne hij]

end Cluster

theorem recorded_of_run {c : Cluster n C} {as : List (Action n C)}
    (h : run Cluster.step Cluster.init as = some c) : Cluster.Recorded as c := by
  have hrec : Cluster.Recorded ([] ++ as) c ∧ ∃ g, Elected c g := by
    refine run_history (P := fun as c => Cluster.Recorded as c ∧ ∃ g, Elected c g)
      (fun as c a c' ⟨hrec, g, hi⟩ hstep => ⟨hrec.step hi hstep, g.observe c', hi.step hstep⟩) h
      ⟨fun s i hl => ?_, _, Elected.init⟩
    have hfollower : ((Cluster.init : Cluster n C).servers s).state = .follower := make_state s {}
    cases hfollower.symm.trans hl
  exact hrec.1

/-- **Follower progress is monotone.** As long as a server leads a term, its `matchIndex` for a peer
does not go down, in every run in which the successful replies of this peer in this term are handled
in the order of what they cover. -/
theorem matchIndex_mono {c₁ c₂ : Cluster n C} {as bs : List (Action n C)}
    (h₁ : run Cluster.step Cluster.init as = some c₁) (h₂ : run Cluster.step c₁ bs = some c₂)
    {s i : Fin n} {T : ℤ} (horder : (as ++ bs).Pairwise (c₂.InOrder s i T))
    (hleads : Along Cluster.step (fun c _ => c.Leads s T) c₁ bs) (hleads₂ : c₂.Leads s T) :
    (c₁.servers s).matchIndex i ≤ (c₂.servers s).matchIndex i := by
  induction bs generalizing as c₁ with
  | nil =>
    rw [run_nil, Option.some.injEq] at h₂
    rw [h₂]
  | cons b bs ih =>
    obtain ⟨c, hstep, hrun⟩ := run_cons_eq_some.1 h₂
    have hlead : c.Leads s T := hleads.of_cons hstep hrun hleads₂
    obtain ⟨g, hi⟩ := exists_elected h₁
    have horder₁ : ∀ a ∈ as, c₁.InOrder s i (c₁.servers s).currentTerm a b := fun a ha => by
      rw [hleads.1.2]
      exact ((List.pairwise_append.1 horder).2.2 a ha b List.mem_cons_self).of_run h₂
    have hle := (recorded_of_run h₁).matchIndex_le hi hstep horder₁ hleads.1.1 hlead.1
    rw [← List.singleton_append, ← List.append_assoc] at horder
    have hrun₁ : run Cluster.step Cluster.init (as ++ [b]) = some c :=
      run_append_of h₁ (run_cons_eq_some.2 ⟨c, hstep, rfl⟩)
    exact hle.trans (ih hrun₁ hrun horder (hleads.2 c hstep))

/-- Server 0 leads term 2 and has sent server 1 two requests: call 4 with one entry, and call 5 with
two. Server 1 has answered both. -/
def overlappingRun : List (Action 3 ℕ) :=
  startedRun ++ ([.msgComing 0, .task 0, .start 0 8, .msgComing 0, .task 1, .deliver 4,
    .deliver 5] : List (Action 3 ℕ))

theorem matchIndex_mono_overlappingRun :
    ∃ c₁ c₂ : Cluster 3 ℕ,
      run Cluster.step Cluster.init (overlappingRun ++ [Action.receive 4]) = some c₁ ∧
      run Cluster.step c₁ [.receive 5] = some c₂ ∧ (c₁.servers 0).matchIndex 1 = 1 ∧
      (c₁.servers 0).matchIndex 1 ≤ (c₂.servers 0).matchIndex 1 := by
  have h : ∃ c₁ : Cluster 3 ℕ,
      run Cluster.step Cluster.init (overlappingRun ++ [Action.receive 4]) = some c₁ ∧
      (c₁.servers 0).matchIndex 1 = 1 ∧ ∃ c₂, run Cluster.step c₁ [.receive 5] = some c₂ ∧
      List.Pairwise (c₂.InOrder 0 1 2)
        ((overlappingRun ++ [Action.receive 4]) ++ [Action.receive 5]) ∧
      Along Cluster.step (fun c _ => c.Leads 0 2) c₁ [.receive 5] ∧ c₂.Leads 0 2 := by
    decide +kernel
  obtain ⟨c₁, h₁, hone, c₂, h₂, horder, hleads, hleads₂⟩ := h
  exact ⟨c₁, c₂, h₁, h₂, hone, matchIndex_mono h₁ h₂ horder hleads hleads₂⟩

/-- When the second reply is handled first, the first one takes `matchIndex` back. -/
theorem matchIndex_mono_fails :
    ∃ c₁ c₂ : Cluster 3 ℕ,
      run Cluster.step Cluster.init (overlappingRun ++ [Action.receive 5]) = some c₁ ∧
      run Cluster.step c₁ [.receive 4] = some c₂ ∧ c₁.Leads 0 2 ∧ c₂.Leads 0 2 ∧
      (c₁.servers 0).matchIndex 1 = 2 ∧ (c₂.servers 0).matchIndex 1 = 1 := by
  have h : ∃ c₁ : Cluster 3 ℕ,
      run Cluster.step Cluster.init (overlappingRun ++ [Action.receive 5]) = some c₁ ∧
      c₁.Leads 0 2 ∧ (c₁.servers 0).matchIndex 1 = 2 ∧
      ∃ c₂, run Cluster.step c₁ [.receive 4] = some c₂ ∧ c₂.Leads 0 2 ∧
      (c₂.servers 0).matchIndex 1 = 1 := by
    decide +kernel
  obtain ⟨c₁, h₁, hleads, htwo, c₂, h₂, hleads₂, hone⟩ := h
  exact ⟨c₁, c₂, h₁, h₂, hleads, hleads₂, htwo, hone⟩

end DistSys
