import DistSys.Raft.LogService
import DistSys.ShardKV.Applier

/-!
# The servers of a group on raft

The store takes a group for its log, and its servers for replays of prefixes of that log. This file
shows it of the servers of `Applier` on the cluster of `Raft`, in runs in which `needSnapshot` does
not ask for a snapshot and raft overwrites no request that is still to be encoded: whatever else
raft and the network do, and however often servers restart, there is one log, and every server is in
the state after the entries that it has applied.

* `Cluster.Bare` — no server has a snapshot, so a restarted one begins with no shards.
* `LogSim.unsent`, `LogSim.sent` — what a step of raft is on the replicated log.
* `CaughtUp` — how far a server is.

Main result: `group_on_raft`.
-/

namespace DistSys

open Raft

section Raft

variable {n : ℕ} {C : Type} [Inhabited C] {c c' : Cluster n C} {a : Raft.Action n C}

/-! ## No snapshots -/

/-- No server has a snapshot. -/
def Cluster.Bare (c : Cluster n C) : Prop := ∀ s, (c.servers s).snapShot = []

theorem Raft.snapShot_handle {rf rf' : Raft n C} {rpc rpc' : Rpc n C}
    (h : rpc.handle rf = some (rf', rpc'))
    (hrpc : ∀ args reply, rpc ≠ .installSnapshot args reply) :
    rf'.snapShot = rf.snapShot := by
  rcases Rpc.handle_cases h with ⟨args, reply, -, -, hr⟩ | ⟨args, reply, -, -, hr⟩ | ⟨-, -, rfl⟩ |
    ⟨args, reply, hinstall, -, -⟩
  · have hadopt := (sameLog_adoptTerm rf args.term).snapShot
    rcases appendEntries_cases hr with ⟨rfl, -⟩ | ⟨-, -, rfl⟩ | ⟨-, -, -, rfl⟩
    · rfl
    · exact hadopt
    · obtain ⟨ch, hch, -⟩ := acceptEntries_eq (rf.adoptTerm args.term) args
      rw [hch]
      exact hadopt
  · exact (sameLog_requestVote hr).snapShot
  · rfl
  · exact absurd hinstall (hrpc args none)

namespace Cluster.Bare

theorem init : (Cluster.init : Cluster n C).Bare := fun _ => rfl

theorem act (h : c.Bare) (ho : c.Orderly) (hsnap : ∀ s index data, a ≠ .snapshot s index data)
    (hstep : Step c a c') : c'.Bare := by
  intro s
  have hlog := hstep.logStep ho.started.sound s
  generalize c'.servers s = rf at hlog ⊢
  cases hlog with
  | same _ hsame hterm => exact hsame.snapShot.trans (h s)
  | start command => exact h s
  | handle k call _ rpc ha hk hserver hr =>
    exact (snapShot_handle hr (ho.plain.calls call (List.mem_of_getElem? hk))).trans (h s)
  | snapshot index data _ ha hr => exact absurd ha (hsnap s index data)

/-- Nothing is saved that a restarted server would install. -/
theorem persister (h : c.Bare) (ho : c.Orderly) (s : Fin n) :
    (c.servers s).persister.snapshot = [] := by
  rcases ho.started.sound.durable s with hsaved | ⟨hsaved, -, -⟩
  · rw [hsaved]
    exact h s
  · rw [hsaved]

end Cluster.Bare

/-! ## Steps of raft -/

namespace LogSim

variable {r : ReplicatedLog (Fin n) C}

/-- A step that sends nothing on `applyCh`. -/
theorem unsent (h : LogSim c r) (ho : c.Orderly)
    (hsnap : ∀ s index data, a ≠ .snapshot s index data) (hcrash : ∀ s, a ≠ .crash s)
    (hsends : c.sends a = none) (hact : c.act a = some c') :
    ∃ r', r'.log = r.log ∧ r'.delivered = r.delivered ∧ LogSim c' r' := by
  by_cases hq : c.Quiet a
  · exact ⟨r, rfl, rfl, h.other ho hq (Cluster.act_cases hact)⟩
  cases a with
  | start s command =>
    have hl : (c.servers s).state = .leader := not_not.1 hq
    obtain ⟨-, h'⟩ := h.propose ho hl command rfl rfl
    rw [Cluster.act, start_of_leader hl] at hact
    cases hact
    exact ⟨r.propose s _ _ command, rfl, rfl, h'⟩
  | commitChecker s =>
    refine absurd (fun rf msg hr => ?_) hq
    rw [Cluster.sends, hr] at hsends
    cases hsends
  | snapshot s index data => exact absurd rfl (hsnap s index data)
  | crash s => exact absurd rfl (hcrash s)
  | _ => exact absurd trivial hq

/-- A step that sends a message: it is the next entry. -/
theorem sent (h : LogSim c r) (ho : c.Orderly) (ho' : c'.Orderly) {s : Fin n} {msg : ApplyMsg C}
    (hsends : c.sends a = some (s, msg)) (hact : c.act a = some c') :
    ∃ r' e, msg = .ofEntry (r.delivered s + 1) e.1 e.2 ∧ r.log <+: r'.log ∧
      r'.log[r.delivered s]? = some e ∧
      r'.delivered = Function.update r.delivered s (r.delivered s + 1) ∧ LogSim c' r' := by
  cases a with
  | commitChecker q =>
    obtain ⟨msg, hmsg, heq⟩ := Option.map_eq_some_iff.1 hsends
    cases heq
    obtain ⟨⟨rf, out⟩, hr, rfl⟩ := Option.bind_eq_some_iff.1 hmsg
    rw [Cluster.act, hr] at hact
    cases hact
    obtain ⟨hentry, r₀, hr₀, hnext, h'⟩ := h.deliver ho hr rfl ho'
    refine ⟨r₀.deliver s msg.commandTerm msg.command, (msg.commandTerm, msg.command), hentry, ?_,
      hnext, ?_, h'⟩
    · rcases hr₀ with rfl | ⟨-, rfl⟩
      · exact List.prefix_rfl
      · exact List.prefix_append _ _
    · rcases hr₀ with rfl | ⟨-, rfl⟩ <;> rfl
  | sendSnapshot q k =>
    obtain ⟨msg, hmsg, heq⟩ := Option.map_eq_some_iff.1 hsends
    cases heq
    rw [(h.due s).snapshots] at hmsg
    cases hmsg
  | _ => cases hsends

end LogSim

end Raft

namespace ShardKV

/-! ## One server -/

/-- A server that has been handed `d` entries of the log. -/
structure CaughtUp (gid : ℤ) (log : List (ℤ × Command)) (d : ℕ) (r : Replica) : Prop where
  le : d ≤ log.length
  state : r.kv = replay gid ((log.take r.lastApplied).map Prod.snd)
  waiting : r.applier = .waiting → r.lastApplied = d
  received : ∀ message, r.applier = .received message → ∃ e, log[r.lastApplied]? = some e ∧
    r.lastApplied + 1 = d ∧ message = .ofEntry d e.1 e.2
  snapshot : ∀ index data, r.applier ≠ .takingSnapshot index data

namespace CaughtUp

variable {labgob : Labgob} {gid : ℤ} {log log' : List (ℤ × Command)} {d : ℕ} {r r' : Replica}

theorem start (labgob : Labgob) (gid : ℤ) (log : List (ℤ × Command)) :
    CaughtUp gid log 0 (startServer labgob gid []) where
  le := Nat.zero_le _
  state := rfl
  waiting _ := rfl
  received message h := absurd h (Applier.waiting_ne message)
  snapshot index data h := by cases h

theorem lastApplied_le (h : CaughtUp gid log d r) : r.lastApplied ≤ d := by
  cases happlier : r.applier with
  | waiting => exact (h.waiting happlier).le
  | received message =>
    obtain ⟨e, -, hd, -⟩ := h.received message happlier
    omega
  | takingSnapshot index data => exact absurd happlier (h.snapshot index data)

/-- The log grows. -/
theorem mono (h : CaughtUp gid log d r) (hlog : log <+: log') : CaughtUp gid log' d r := by
  obtain ⟨rest, rfl⟩ := hlog
  have hlast : r.lastApplied ≤ log.length := h.lastApplied_le.trans h.le
  refine ⟨?_, ?_, h.waiting, fun message hmessage => ?_, h.snapshot⟩
  · rw [List.length_append]
    exact h.le.trans (Nat.le_add_right _ _)
  · rw [List.take_append_of_le_length hlast]
    exact h.state
  · obtain ⟨e, he, hrest⟩ := h.received message hmessage
    exact ⟨e, by rw [List.getElem?_append_left (List.getElem?_eq_some_iff.1 he).1, he], hrest⟩

/-- The server receives the next entry. -/
theorem receive (h : CaughtUp gid log d r) (hw : r.applier = .waiting) {e : ℤ × Command}
    (he : log[d]? = some e) :
    CaughtUp gid log (d + 1) { r with applier := .received (.ofEntry (d + 1) e.1 e.2) } := by
  have hlast := h.waiting hw
  refine ⟨(List.getElem?_eq_some_iff.1 he).1, h.state, (fun hwaiting => by cases hwaiting),
    fun message hmessage => ?_, fun index data hsnapshot => by cases hsnapshot⟩
  cases hmessage
  exact ⟨e, by rw [hlast, he], by rw [hlast], rfl⟩

/-- The server applies the entry. -/
theorem apply (h : CaughtUp gid log d r) {message : ApplyMsg Command}
    (hr : r.applier = .received message) (hhandle : r.handle labgob message false = some r') :
    CaughtUp gid log d r' := by
  obtain ⟨e, he, hd, rfl⟩ := h.received message hr
  have hnew : ¬ d ≤ r.lastApplied := by omega
  have hr' : r' = ⟨(r.kv.apply e.2).1, d, .waiting⟩ := by
    have happly : some (r.applyCommand labgob (.ofEntry d e.1 e.2) false) = some r' := hhandle
    rw [← Option.some.inj happly, Replica.applyCommand]
    exact if_neg hnew
  subst hr'
  refine ⟨h.le, ?_, fun _ => rfl, (fun message hmessage => by cases hmessage),
    fun index data hsnapshot => by cases hsnapshot⟩
  simp only
  rw [← hd, List.take_add_one, he, Option.toList_some, List.map_append, List.map_singleton,
    replay_concat, ← h.state]

end CaughtUp

/-! ## The group -/

/-- Raft overwrites no request that is still to be encoded. -/
def Replicas.NoOverwrite {n : ℕ} (g : Replicas n) : Replicas.Action n → Prop
  | .raft a => g.raft.NoOverwrite a
  | .apply _ _ | .takeSnapshot _ => True

instance {n : ℕ} (g : Replicas n) : DecidablePred g.NoOverwrite
  | .raft a => inferInstanceAs (Decidable (g.raft.NoOverwrite a))
  | .apply _ _ | .takeSnapshot _ => isTrue trivial

/-- `kv.needSnapshot` says that it is time for a snapshot. -/
def Replicas.Action.needsSnapshot {n : ℕ} : Replicas.Action n → Bool
  | .apply _ needSnapshot => needSnapshot
  | _ => false

/-- The group and its log. -/
structure Follows {n : ℕ} (gid : ℤ) (g : Replicas n) (r : ReplicatedLog (Fin n) Command) :
    Prop where
  orderly : g.raft.Orderly
  bare : g.raft.Bare
  sim : LogSim g.raft r
  servers : ∀ s, CaughtUp gid r.log (r.delivered s) (g.replicas s)

namespace Follows

variable {n : ℕ} {labgob : Labgob} {gid : ℤ} {g g' : Replicas n}
  {r : ReplicatedLog (Fin n) Command}

theorem init (labgob : Labgob) (gid : ℤ) :
    Follows gid (Replicas.init labgob gid : Replicas n) .init where
  orderly := .init
  bare := .init
  sim := .init
  servers _ := .start labgob gid _

/-- One server has been handed `d` entries. -/
theorem servers_update (h : Follows gid g r) (s : Fin n) {d : ℕ} {rep : Replica}
    {log : List (ℤ × Command)} (hlog : r.log <+: log) (hs : CaughtUp gid log d rep) (q : Fin n) :
    CaughtUp gid log (Function.update r.delivered s d q) (Function.update g.replicas s rep q) := by
  by_cases hq : q = s
  · subst hq
    rwa [Function.update_self, Function.update_self]
  · rw [Function.update_of_ne hq, Function.update_of_ne hq]
    exact (h.servers q).mono hlog

theorem raft (h : Follows gid g r) {a : Raft.Action n Command} (hno : g.raft.NoOverwrite a)
    (hsnap : ∀ s index data, a ≠ .snapshot s index data) (hcrash : ∀ s, a ≠ .crash s)
    {c : Cluster n Command} (hc : g.raft.step a = some c) (hsends : g.raft.sends a = none) :
    ∃ r', Follows gid { g with raft := c } r' ∧ r.log <+: r'.log := by
  obtain ⟨hact, ho'⟩ := h.orderly.step hno hsnap hc
  obtain ⟨r', hlog, hdelivered, hsim⟩ := h.sim.unsent h.orderly hsnap hcrash hsends hact
  refine ⟨r', ⟨ho', h.bare.act h.orderly hsnap (Cluster.act_cases hact), hsim, fun s => ?_⟩,
    hlog ▸ List.prefix_rfl⟩
  rw [hlog, hdelivered]
  exact h.servers s

theorem receive (h : Follows gid g r) {a : Raft.Action n Command} (hno : g.raft.NoOverwrite a)
    (hsnap : ∀ s index data, a ≠ .snapshot s index data) {c : Cluster n Command}
    (hc : g.raft.step a = some c) {s : Fin n} {message : ApplyMsg Command}
    (hsends : g.raft.sends a = some (s, message)) (hw : (g.replicas s).applier = .waiting) :
    ∃ r', Follows gid (({ g with raft := c } : Replicas n).setReplica s
      { g.replicas s with applier := .received message }) r' ∧ r.log <+: r'.log := by
  obtain ⟨hact, ho'⟩ := h.orderly.step hno hsnap hc
  obtain ⟨r', e, rfl, hlog, he, hdelivered, hsim⟩ := h.sim.sent h.orderly ho' hsends hact
  refine ⟨r', ⟨ho', h.bare.act h.orderly hsnap (Cluster.act_cases hact), hsim, fun q => ?_⟩, hlog⟩
  rw [hdelivered]
  exact h.servers_update s hlog (((h.servers s).mono hlog).receive hw he) q

theorem crash (h : Follows gid g r) {s : Fin n} {c : Cluster n Command}
    (hc : g.raft.step (.crash s) = some c) :
    Follows gid (({ g with raft := c } : Replicas n).setReplica s
      (startServer labgob gid (g.raft.servers s).persister.snapshot)) (r.restart s) := by
  have hsnap : ∀ q index data, (.crash s : Raft.Action n Command) ≠ .snapshot q index data := by
    intro q index data heq
    cases heq
  obtain ⟨hact, ho'⟩ := h.orderly.step (a := .crash s) trivial hsnap hc
  cases hact
  refine ⟨ho', h.bare.act h.orderly hsnap (.crash s), h.sim.restart ho', ?_⟩
  rw [h.bare.persister h.orderly s]
  exact h.servers_update s List.prefix_rfl (.start labgob gid _)

theorem apply (h : Follows gid g r) {s : Fin n} {message : ApplyMsg Command} {rep : Replica}
    (hr : (g.replicas s).applier = .received message)
    (hhandle : (g.replicas s).handle labgob message false = some rep) :
    Follows gid (g.setReplica s rep) r := by
  refine ⟨h.orderly, h.bare, h.sim, fun q => ?_⟩
  have hservers := h.servers_update s List.prefix_rfl ((h.servers s).apply hr hhandle) q
  rwa [Function.update_eq_self] at hservers

/-- **A step of the group keeps its servers on one log**, which only grows. -/
theorem step (h : Follows gid g r) {a : Replicas.Action n} (hno : g.NoOverwrite a)
    (hsnap : a.needsSnapshot = false)
    (hstep : g.step labgob gid a = some g') : ∃ r', Follows gid g' r' ∧ r.log <+: r'.log := by
  unfold Replicas.step at hstep
  split at hstep
  · cases hstep
  · obtain ⟨c, hc, hstep⟩ := Option.bind_eq_some_iff.1 hstep
    cases hstep
    exact ⟨_, h.crash hc, List.prefix_rfl⟩
  · rename_i a hsnapshot hcrash
    obtain ⟨c, hc, hstep⟩ := Option.bind_eq_some_iff.1 hstep
    split at hstep
    · rename_i hsends
      cases hstep
      exact h.raft hno hsnapshot hcrash hc hsends
    · rename_i s message hsends
      unfold Replicas.receive at hstep
      split at hstep
      · rename_i hw
        cases hstep
        exact h.receive hno hsnapshot hc hsends hw
      · cases hstep
  · rename_i s needSnapshot
    split at hstep
    · rename_i message hr
      obtain ⟨rep, hhandle, rfl⟩ := Option.map_eq_some_iff.1 hstep
      cases needSnapshot with
      | true => cases hsnap
      | false => exact ⟨r, h.apply hr hhandle, List.prefix_rfl⟩
    · cases hstep
  · rename_i s
    split at hstep
    · rename_i index data hs
      exact absurd hs ((h.servers s).snapshot index data)
    · cases hstep

end Follows

/-- **The servers of a group agree.** If no snapshot is asked for and no request overwritten, there
is one log, of commands that were started in raft at their index and term, and the state of every
server is the replay of the entries up to the last one that it has applied. -/
theorem group_on_raft {n : ℕ} {labgob : Labgob} {gid : ℤ} {as : List (Replicas.Action n)}
    {g : Replicas n}
    (hno : Along (Replicas.step labgob gid) Replicas.NoOverwrite (Replicas.init labgob gid) as)
    (hsnap : ∀ a ∈ as, a.needsSnapshot = false)
    (hrun : run (Replicas.step labgob gid) (Replicas.init labgob gid) as = some g) :
    ∃ log : List (ℤ × Command),
      (∀ p e, log[p]? = some e → ∃ q, .start q (p + 1) e.1 e.2 ∈ g.raft.trace) ∧
      ∀ s, (g.replicas s).lastApplied ≤ log.length ∧
        (g.replicas s).kv = replay gid ((log.take (g.replicas s).lastApplied).map Prod.snd) := by
  obtain ⟨r, h⟩ := run_induction (P := fun g => ∃ r, Follows gid g r)
    (fun g a g' hP hC hstep => by
      obtain ⟨r, h⟩ := hP
      obtain ⟨r', h', -⟩ := h.step hC.1 hC.2 hstep
      exact ⟨r', h'⟩)
    (hno.and (along_of_forall hsnap)) hrun ⟨_, .init labgob gid⟩
  refine ⟨r.log, fun p e he => h.sim.log_started h.orderly he, fun s => ⟨?_, (h.servers s).state⟩⟩
  exact (h.servers s).lastApplied_le.trans (h.servers s).le

/-- Server 0 of three leads. The configuration and a `Put` are committed with server 1, and server 0
applies both. -/
def uncompactedRun : List (Replicas.Action 3) :=
  raftSteps (firstElection ++ [.commitChecker 0, .start 0 firstConfig, .start 0 firstPut,
    .msgComing 0, .task 0, .deliver 4, .receive 4, .commitChecker 0, .commitChecker 0]) ++
  [Replicas.Action.apply 0 false] ++ raftSteps [.commitChecker 0, .commitChecker 0] ++
  [Replicas.Action.apply 0 false]

theorem group_on_raft_uncompactedRun :
    ∃ g : Replicas 3,
      run (Replicas.step firstLabgob 1) (Replicas.init firstLabgob 1) uncompactedRun = some g ∧
      (g.replicas 0).lastApplied = 2 ∧ (g.replicas 0).kv.content 0 [0] = some [8] ∧
      ∃ log : List (ℤ × Command),
        (∀ p e, log[p]? = some e → ∃ q, .start q (p + 1) e.1 e.2 ∈ g.raft.trace) ∧
        ∀ s, (g.replicas s).lastApplied ≤ log.length ∧
          (g.replicas s).kv = replay 1 ((log.take (g.replicas s).lastApplied).map Prod.snd) := by
  obtain ⟨g, hg, hlast, hvalue⟩ : ∃ g : Replicas 3,
      run (Replicas.step firstLabgob 1) (Replicas.init firstLabgob 1) uncompactedRun = some g ∧
      (g.replicas 0).lastApplied = 2 ∧ (g.replicas 0).kv.content 0 [0] = some [8] := by
    decide +kernel
  exact ⟨g, hg, hlast, hvalue, group_on_raft (by decide +kernel) (by decide) hg⟩

end ShardKV

end DistSys
