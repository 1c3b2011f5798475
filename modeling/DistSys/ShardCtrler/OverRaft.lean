import DistSys.Raft.Hosted
import DistSys.ShardCtrler.Agreement
import DistSys.ShardCtrler.Server

/-!
# The shard controller on raft

The controllers of `shardctrler/server.go` on the cluster of `Raft`: `Command` answers a repeated
request from the table of the clients and calls `Start` for all others, and the applier takes the
messages of raft. The controller never compacts its log, so all its runs are covered in which raft
overwrites no request that is still to be encoded.

Every application of an entry meets the maps in an order of its own, also when a server applies an
entry again after a restart. The states are nevertheless those of one log (`Follows`), hence the
lists of configurations are prefixes of one another, and a number stands for one configuration
wherever it is asked for. The groups of `shardkv` rely on that.

* `replay` — the state after a list of entries.
* `applyCommand_order` — what is made of an entry does not depend on the orders.
* `Follows` — the state of each server is the replay of what it has been handed.

Main results: `controllers_on_raft` and `config_num_on_raft`.
-/

namespace DistSys.ShardCtrler

instance inhabitedCommandArgs : Inhabited CommandArgs := ⟨⟨.query (-1), 0, 0⟩⟩

/-! ## The service -/

structure Controllers (n : ℕ) where
  servers : Fin n → ShardCtrler
  /-- The index of the last entry that was applied. -/
  applied : Fin n → ℕ
  /-- How many entries have been applied, by all servers together. -/
  rounds : ℕ
  /-- The replies that were made, each with its command. -/
  replies : List (CommandArgs × CommandReply)

namespace Controllers

variable {n : ℕ}

def init : Controllers n := ⟨fun _ => new, fun _ => 0, 0, []⟩

variable (st : Controllers n) (s : Fin n)

/-- `Command` answers from the table of the clients. -/
def answer (args : CommandArgs) : Option (Controllers n) :=
  if ¬ args.op.IsQuery ∧ (st.servers s).isDuplicateRequest args.clientId args.commandId then
    some { st with replies := st.replies ++ [(args, (st.servers s).lastReply args.clientId)] }
  else none

/-- `Command` calls `Start`. -/
def asks (args : CommandArgs) : Option (Fin n × CommandArgs) :=
  if ¬ args.op.IsQuery ∧ (st.servers s).isDuplicateRequest args.clientId args.commandId then none
  else some (s, args)

/-- The applier takes a message. -/
def handle (order : ℕ → RangeOrder) (fuel : ℕ) (msg : Raft.ApplyMsg CommandArgs) :
    Option (Controllers n) :=
  if msg.commandValid then
    (applyCommand (order st.rounds) fuel (st.servers s) msg.command).map fun r =>
      { servers := Function.update st.servers s r.1
        applied := Function.update st.applied s msg.commandIndex
        rounds := st.rounds + 1
        replies := st.replies ++ [(msg.command, r.2)] }
  else some st

/-- `StartServer`: nothing is kept but what raft has saved. -/
def restart : Controllers n :=
  { st with
    servers := Function.update st.servers s new
    applied := Function.update st.applied s 0 }

end Controllers

/-- The controllers. What a handler does after `Start` concerns its channel only. -/
def service (n : ℕ) (order : ℕ → RangeOrder) (fuel : ℕ) :
    RaftService n CommandArgs (Controllers n) (Fin n × CommandArgs) (Fin n × CommandArgs) where
  act st p := st.answer p.1 p.2
  asks st p := st.asks p.1 p.2
  told st _ _ := st
  take st s msg := st.handle s order fuel msg
  restart st s := st.restart s

/-! ## Commands -/

/-- The entries of the log, with their terms, one after the other. -/
def replay (fuel : ℕ) : ShardCtrler → List (ℤ × CommandArgs) → Option ShardCtrler :=
  run fun sc e => (applyCommand .ascending fuel sc e.2).map Prod.fst

variable {fuel : ℕ} {order : RangeOrder} {sc sc' : ShardCtrler}

/-- A command is applied, and what comes out does not depend on the orders. -/
theorem applyCommand_order (hfuel : 2 * (NShards + 1) * NShards + 1 < fuel) (sc : ShardCtrler)
    (command : CommandArgs) : ∃ r, ∀ order, applyCommand order fuel sc command = some r := by
  obtain ⟨cf, hstep⟩ := step_order hfuel sc.stateMachine command.op
  have hsame : ∀ order, applyCommand order fuel sc command =
      applyCommand .ascending fuel sc command := by
    intro order
    have happly : apply order fuel sc.stateMachine command.op =
        apply .ascending fuel sc.stateMachine command.op := (hstep order).trans (hstep _).symm
    rw [applyCommand, applyCommand, applyLogToStateMachine, applyLogToStateMachine, happly]
  cases h : applyCommand .ascending fuel sc command with
  | some r => exact ⟨r, fun order => (hsame order).trans h⟩
  | none =>
    have happly : apply .ascending fuel sc.stateMachine command.op = some cf := hstep _
    rw [applyCommand, applyLogToStateMachine, happly] at h
    split at h <;> cases h

theorem MemoryConfigStateMachine.query_mem (cf : MemoryConfigStateMachine) (num : ℤ) :
    cf.query num ∈ cf.configs := by
  have hlast : cf.last ∈ cf.configs := List.getLast_mem _
  rw [query, List.getD_eq_getElem?_getD]
  split
  · exact hlast
  · cases hnum : cf.configs[num.toNat]? with
    | none => exact hlast
    | some c => exact List.mem_of_getElem? hnum

/-- The configurations are numbered by position. -/
theorem MemoryConfigStateMachine.eq_of_num (cf : MemoryConfigStateMachine) {c c' : Config}
    (hc : c ∈ cf.configs) (hc' : c' ∈ cf.configs) (hnum : c.num = c'.num) : c = c' := by
  obtain ⟨i, hi⟩ := List.mem_iff_getElem?.1 hc
  obtain ⟨j, hj⟩ := List.mem_iff_getElem?.1 hc'
  have hij : i = j := (cf.num_eq hi).symm.trans (hnum.trans (cf.num_eq hj))
  rw [hij, hj, Option.some.injEq] at hi
  exact hi.symm

/-- No command removes or changes a configuration. -/
theorem apply_grows {cf cf' : MemoryConfigStateMachine} {op : Op}
    (h : apply order fuel cf op = some cf') : cf.configs <+: cf'.configs := by
  cases op with
  | join groups =>
    obtain ⟨m, -, rfl⟩ := Option.map_eq_some_iff.1 h
    exact List.prefix_append _ _
  | leave gids =>
    cases h
    rw [MemoryConfigStateMachine.leave]
    split <;> exact List.prefix_append _ _
  | move shard gid =>
    cases h
    exact List.prefix_append _ _
  | query num =>
    cases h
    exact List.prefix_rfl

/-- A query is answered with one of the configurations. -/
theorem applyLogToStateMachine_spec {cf cf' : MemoryConfigStateMachine} {op : Op}
    {reply : CommandReply} (h : applyLogToStateMachine order fuel cf op = some (cf', reply)) :
    cf.configs <+: cf'.configs ∧ (op.IsQuery → reply.config ∈ cf'.configs) := by
  obtain ⟨cf₁, hcf, heq⟩ := Option.map_eq_some_iff.1 h
  have hgrows := apply_grows hcf
  cases op with
  | query num =>
    cases hcf
    cases heq
    exact ⟨hgrows, fun _ => cf.query_mem num⟩
  | join groups | leave gids | move shard gid =>
    cases heq
    exact ⟨hgrows, fun hquery => by cases hquery⟩

theorem applyCommand_spec {command : CommandArgs} {reply : CommandReply}
    (h : applyCommand order fuel sc command = some (sc', reply)) :
    sc.stateMachine.configs <+: sc'.stateMachine.configs ∧
      (command.op.IsQuery → reply.config ∈ sc'.stateMachine.configs) := by
  rw [applyCommand] at h
  split at h
  · rename_i hdup
    cases h
    exact ⟨List.prefix_rfl, fun hquery => absurd hquery hdup.1⟩
  · obtain ⟨r, hr, heq⟩ := Option.map_eq_some_iff.1 h
    have hspec := applyLogToStateMachine_spec hr
    split at heq <;> cases heq <;> exact hspec

/-! ## Replays -/

theorem replay_grows {log : List (ℤ × CommandArgs)} (h : replay fuel sc log = some sc') :
    sc.stateMachine.configs <+: sc'.stateMachine.configs := by
  refine run_invariant (P := fun sc' => sc.stateMachine.configs <+: sc'.stateMachine.configs)
    (fun sc₁ e sc₂ hgrows hstep => ?_) h List.prefix_rfl
  obtain ⟨r, hr, rfl⟩ := Option.map_eq_some_iff.1 hstep
  exact hgrows.trans (applyCommand_spec hr).1

/-- Less of the log gives fewer configurations. -/
theorem replay_take_grows {log : List (ℤ × CommandArgs)} {k k' : ℕ} (hk : k ≤ k')
    (h : replay fuel new (log.take k) = some sc) (h' : replay fuel new (log.take k') = some sc') :
    sc.stateMachine.configs <+: sc'.stateMachine.configs := by
  have hsplit : log.take k' = log.take k ++ (log.take k').drop k := by
    conv_lhs => rw [← List.take_append_drop k (log.take k'), List.take_take, Nat.min_eq_left hk]
  rw [replay, hsplit, run_append, ← replay, h] at h'
  exact replay_grows h'

/-- One more entry. -/
theorem replay_take_succ {log : List (ℤ × CommandArgs)} {k : ℕ} {e : ℤ × CommandArgs}
    {reply : CommandReply} (h : replay fuel new (log.take k) = some sc) (he : log[k]? = some e)
    (happly : applyCommand .ascending fuel sc e.2 = some (sc', reply)) :
    replay fuel new (log.take (k + 1)) = some sc' := by
  rw [List.take_add_one, he, Option.toList_some]
  refine run_append_of h ?_
  rw [run_cons, happly]
  rfl

/-! ## The controllers and their log -/

/-- A server that has been handed `d` entries of the log. -/
structure Replays (fuel : ℕ) (log : List (ℤ × CommandArgs)) (d applied : ℕ) (sc : ShardCtrler) :
    Prop where
  applied_eq : applied = d
  le : d ≤ log.length
  state : replay fuel new (log.take d) = some sc

/-- The state of each server is the replay of the entries that it has been handed, and what a query
was answered is a configuration of some replay. -/
structure Follows {n : ℕ} (fuel : ℕ) (st : Controllers n)
    (r : ReplicatedLog (Fin n) CommandArgs) : Prop where
  servers : ∀ s, Replays fuel r.log (r.delivered s) (st.applied s) (st.servers s)
  queries : ∀ p ∈ st.replies, p.1.op.IsQuery → ∃ k sc, k ≤ r.log.length ∧
    replay fuel new (r.log.take k) = some sc ∧ p.2.config ∈ sc.stateMachine.configs

namespace Follows

variable {n : ℕ} {st st' : Controllers n} {r r' : ReplicatedLog (Fin n) CommandArgs} {s : Fin n}

theorem init : Follows (n := n) fuel .init .init where
  servers _ := ⟨rfl, le_rfl, rfl⟩
  queries _ hp := absurd hp List.not_mem_nil

theorem answer (h : Follows fuel st r) {args : CommandArgs} (hst : st.answer s args = some st') :
    Follows fuel st' r := by
  rw [Controllers.answer] at hst
  split at hst
  · rename_i hdup
    cases hst
    refine ⟨h.servers, fun p hp hquery => ?_⟩
    rcases List.mem_append.1 hp with hp | hp
    · exact h.queries p hp hquery
    · rw [List.mem_singleton.1 hp] at hquery
      exact absurd hquery hdup.1
  · cases hst

theorem commit (h : Follows fuel st r) (term : ℤ) (command : CommandArgs) :
    Follows fuel st (r.commit term command) := by
  have htake : ∀ {k}, k ≤ r.log.length → (r.log ++ [(term, command)]).take k = r.log.take k :=
    fun hk => List.take_append_of_le_length hk
  have hle : r.log.length ≤ (r.log ++ [(term, command)]).length := by simp
  refine ⟨fun s => ?_, fun p hp hquery => ?_⟩
  · obtain ⟨happlied, hd, hstate⟩ := h.servers s
    refine ⟨happlied, hd.trans hle, ?_⟩
    simp only [ReplicatedLog.commit, htake hd]
    exact hstate
  · obtain ⟨k, sc, hk, hsc, hmem⟩ := h.queries p hp hquery
    refine ⟨k, sc, hk.trans hle, ?_, hmem⟩
    simp only [ReplicatedLog.commit, htake hk]
    exact hsc

/-- One server has been handed `d` entries. -/
theorem servers_update (h : Follows fuel st r) {d applied : ℕ} {sc : ShardCtrler}
    (hs : Replays fuel r.log d applied sc) (q : Fin n) :
    Replays fuel r.log (Function.update r.delivered s d q) (Function.update st.applied s applied q)
      (Function.update st.servers s sc q) := by
  by_cases hq : q = s
  · subst hq
    rwa [Function.update_self, Function.update_self, Function.update_self]
  · rw [Function.update_of_ne hq, Function.update_of_ne hq, Function.update_of_ne hq]
    exact h.servers q

theorem deliver (hfuel : 2 * (NShards + 1) * NShards + 1 < fuel) {order : ℕ → RangeOrder}
    (h : Follows fuel st r) {e : ℤ × CommandArgs} (he : r.log[r.delivered s]? = some e)
    (htake : st.handle s order fuel (.ofEntry (r.delivered s + 1) e.1 e.2) = some st') :
    Follows fuel st' (r.deliver s e.1 e.2) := by
  obtain ⟨⟨sc, reply⟩, hr, rfl⟩ := Option.map_eq_some_iff.1 htake
  -- the server met the maps in an order of its own
  obtain ⟨r₁, horder⟩ := applyCommand_order hfuel (st.servers s) e.2
  have hascending : applyCommand .ascending fuel (st.servers s) e.2 = some (sc, reply) :=
    (horder _).trans ((horder _).symm.trans hr)
  have hlt : r.delivered s < r.log.length := (List.getElem?_eq_some_iff.1 he).1
  have hreplay := replay_take_succ (h.servers s).state he hascending
  refine ⟨h.servers_update ⟨rfl, hlt, hreplay⟩, fun p hp hquery => ?_⟩
  rcases List.mem_append.1 hp with hp | hp
  · exact h.queries p hp hquery
  · rw [List.mem_singleton.1 hp] at hquery ⊢
    exact ⟨_, sc, hlt, hreplay, (applyCommand_spec hr).2 hquery⟩

theorem restart (h : Follows fuel st r) (s : Fin n) : Follows fuel (st.restart s) (r.restart s) :=
  ⟨h.servers_update ⟨rfl, Nat.zero_le _, rfl⟩, h.queries⟩

/-- What a step of the controllers on a replicated log preserves. -/
theorem step (hfuel : 2 * (NShards + 1) * NShards + 1 < fuel) {order : ℕ → RangeOrder}
    (h : Follows fuel st r)
    {a : LogClient.Action (Fin n) (Fin n × CommandArgs) (Fin n × CommandArgs)}
    (hstep : (service n order fuel).client.step (st, r) a = some (st', r')) :
    Follows fuel st' r' := by
  cases LogClient.step_cases hstep with
  | act p st' hact => exact h.answer hact
  | refuse p q hask => exact h
  | propose p index term q hask hterm hfree => exact ⟨h.servers, h.queries⟩
  | commit term command hprop => exact h.commit term command
  | deliver s e st' he htake => exact h.deliver hfuel he htake
  | restart s => exact h.restart s

end Follows

section OnRaft

variable {n : ℕ} {order : ℕ → RangeOrder}
  {as : List (RaftService.Action n CommandArgs (Fin n × CommandArgs) (Fin n × CommandArgs))}
  {st : Controllers n} {c : Cluster n CommandArgs}

theorem exists_follows (hfuel : 2 * (NShards + 1) * NShards + 1 < fuel)
    (hno : Along (service n order fuel).step (service n order fuel).NoOverwrite (.init, .init) as)
    (hrun : run (service n order fuel).step (.init, .init) as = some (st, c)) :
    c.Orderly ∧ ∃ r, Follows fuel st r ∧ LogSim c r := by
  obtain ⟨ho, bs, r, hclient, hsim⟩ := RaftService.hosted hno hrun
  have hfollows := run_invariant
    (P := fun w : Controllers n × ReplicatedLog (Fin n) CommandArgs => Follows fuel w.1 w.2)
    (fun w a w' hP hstep => hP.step hfuel hstep) hclient .init
  exact ⟨ho, r, hfollows, hsim⟩

/-- **The controllers agree.** There is one log, of commands that were started in raft at their
index and term; the state of every server is the replay of what it has applied, in whatever orders
it met the maps; of two servers, one has the first configurations of the other; and the applier
never stops at a message. -/
theorem controllers_on_raft (hfuel : 2 * (NShards + 1) * NShards + 1 < fuel)
    (hno : Along (service n order fuel).step (service n order fuel).NoOverwrite (.init, .init) as)
    (hrun : run (service n order fuel).step (.init, .init) as = some (st, c)) :
    ∃ log : List (ℤ × CommandArgs),
      (∀ p e, log[p]? = some e → ∃ q, .start q (p + 1) e.1 e.2 ∈ c.trace) ∧
      (∀ q, replay fuel new (log.take (st.applied q)) = some (st.servers q)) ∧
      (∀ q q', st.applied q ≤ st.applied q' →
        (st.servers q).stateMachine.configs <+: (st.servers q').stateMachine.configs) ∧
      ∀ q msg, (st.handle q order fuel msg).isSome := by
  obtain ⟨ho, r, hfollows, hsim⟩ := exists_follows hfuel hno hrun
  have hservers : ∀ q, replay fuel new (r.log.take (st.applied q)) = some (st.servers q) := by
    intro q
    rw [(hfollows.servers q).applied_eq]
    exact (hfollows.servers q).state
  refine ⟨r.log, fun p e he => hsim.log_started ho he, hservers, fun q q' hle => ?_, fun q msg => ?_⟩
  · exact replay_take_grows hle (hservers q) (hservers q')
  · obtain ⟨reply, horder⟩ := applyCommand_order hfuel (st.servers q) msg.command
    rw [Controllers.handle, horder]
    split <;> rfl

/-- A run on three servers. Server 0 is elected; a group joins, and the latest configuration is
asked for, and then configuration 1. -/
def onRaftRun : List (RaftService.Action 3 CommandArgs (Fin 3 × CommandArgs) (Fin 3 × CommandArgs)) :=
  (firstElection.map .raft :
      List (RaftService.Action 3 CommandArgs (Fin 3 × CommandArgs) (Fin 3 × CommandArgs))) ++
    [.commitChecker 0, .start (0, ⟨.join ((∅ : GroupMap (List String)).insert 1 ["a"]), 5, 0⟩),
      .start (0, ⟨.query (-1), 5, 1⟩), .start (0, ⟨.query 1, 6, 0⟩), .raft (.msgComing 0),
      .raft (.task 0), .raft (.deliver 4), .raft (.receive 4), .commitChecker 0, .commitChecker 0,
      .commitChecker 0, .commitChecker 0, .commitChecker 0, .commitChecker 0]

theorem controllers_on_raft_onRaftRun :
    ∃ st c, run (service 3 (fun _ => .ascending) 300).step (.init, .init) onRaftRun = some (st, c) ∧
      (st.servers 0).stateMachine.configs.length = 2 ∧
      (st.servers 1).stateMachine.configs <+: (st.servers 0).stateMachine.configs := by
  obtain ⟨w, hw, hlength, hle⟩ : ∃ w, run (service 3 (fun _ => .ascending) 300).step (.init, .init)
        onRaftRun = some w ∧
      (w.1.servers 0).stateMachine.configs.length = 2 ∧ w.1.applied 1 ≤ w.1.applied 0 := by
    decide +kernel
  obtain ⟨log, -, -, hgrows, -⟩ := controllers_on_raft (by decide) (by decide +kernel) hw
  exact ⟨w.1, w.2, hw, hlength, hgrows 1 0 hle⟩

/-- **A number stands for one configuration.** Whatever servers answer two queries, and whenever,
the configurations in the answers are equal if their numbers are. -/
theorem config_num_on_raft (hfuel : 2 * (NShards + 1) * NShards + 1 < fuel)
    (hno : Along (service n order fuel).step (service n order fuel).NoOverwrite (.init, .init) as)
    (hrun : run (service n order fuel).step (.init, .init) as = some (st, c))
    {p p' : CommandArgs × CommandReply} (hp : p ∈ st.replies) (hp' : p' ∈ st.replies)
    (hquery : p.1.op.IsQuery) (hquery' : p'.1.op.IsQuery)
    (hnum : p.2.config.num = p'.2.config.num) : p.2.config = p'.2.config := by
  obtain ⟨-, r, hfollows, -⟩ := exists_follows hfuel hno hrun
  obtain ⟨k, sc, -, hsc, hmem⟩ := hfollows.queries p hp hquery
  obtain ⟨k', sc', -, hsc', hmem'⟩ := hfollows.queries p' hp' hquery'
  rcases le_total k k' with hk | hk
  · exact sc'.stateMachine.eq_of_num ((replay_take_grows hk hsc hsc').subset hmem) hmem' hnum
  · exact sc.stateMachine.eq_of_num hmem ((replay_take_grows hk hsc' hsc).subset hmem') hnum

theorem config_num_on_raft_onRaftRun :
    ∃ st c, run (service 3 (fun _ => .ascending) 300).step (.init, .init) onRaftRun = some (st, c) ∧
      ∃ p p' : CommandArgs × CommandReply, st.replies[1]? = some p ∧ st.replies[2]? = some p' ∧
        p.1 ≠ p'.1 ∧ p.2.config.num = 1 ∧ p.2.config = p'.2.config := by
  obtain ⟨w, hw, hdata⟩ : ∃ w, run (service 3 (fun _ => .ascending) 300).step (.init, .init)
        onRaftRun = some w ∧
      w.1.replies.map (fun p => (p.1, p.2.config.num)) =
        [(⟨.join ((∅ : GroupMap (List String)).insert 1 ["a"]), 5, 0⟩, 0), (⟨.query (-1), 5, 1⟩, 1),
          (⟨.query 1, 6, 0⟩, 1)] := by
    decide +kernel
  obtain ⟨p₀, ps, hps, -, hps'⟩ := List.map_eq_cons_iff.1 hdata
  obtain ⟨p, ps, rfl, hp, hps'⟩ := List.map_eq_cons_iff.1 hps'
  obtain ⟨p', ps, rfl, hp', -⟩ := List.map_eq_cons_iff.1 hps'
  obtain ⟨hcommand, hnum⟩ := Prod.mk.inj hp
  obtain ⟨hcommand', hnum'⟩ := Prod.mk.inj hp'
  refine ⟨w.1, w.2, hw, p, p', by rw [hps]; rfl, by rw [hps]; rfl, ?_, hnum, ?_⟩
  · rw [hcommand, hcommand']
    decide
  · exact config_num_on_raft (by decide) (by decide +kernel) hw (by simp [hps]) (by simp [hps])
      (by rw [hcommand]; rfl) (by rw [hcommand']; rfl) (hnum.trans hnum'.symm)

end OnRaft

end DistSys.ShardCtrler
