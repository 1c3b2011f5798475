import DistSys.Raft.LogService

/-!
# Services on raft

The services of the repository use raft in the same way: they call `Start`, take the messages from
`applyCh` one by one when they are not busy, and stop and start again with their server. In a run of
such a service that does not call `Snapshot`, and in which raft overwrites no request before it is
encoded, it is in the states that it could be in on the replicated log (`RaftService.hosted`).
-/

namespace DistSys

open Raft

/-- A service with the states `σ`, the steps `α` of its own, and the steps `β` that call `Start`. -/
structure RaftService (n : ℕ) (C : Type) [Inhabited C] (σ α β : Type) where
  act : σ → α → Option σ
  /-- The command, and the server whose `Start` is called. -/
  asks : σ → β → Option (Fin n × C)
  /-- `Start` returned an index and a term, or that the server is not the leader. -/
  told : σ → β → Option (ℕ × ℤ) → σ
  /-- The server takes a message from `applyCh`, if it is not busy. -/
  take : σ → Fin n → ApplyMsg C → Option σ
  restart : σ → Fin n → σ

variable {n : ℕ} {C : Type} [Inhabited C] {σ α β : Type}

/-- The steps of raft in which the service has no part. -/
def Raft.Action.Internal : Action n C → Prop
  | .msgComing _ | .timeout _ | .task _ | .encode _ | .deliver _ | .receive _ | .lose _
  | .grow _ => True
  | _ => False

instance Raft.Action.decidableInternal : DecidablePred (Action.Internal (n := n) (C := C))
  | .msgComing _ | .timeout _ | .task _ | .encode _ | .deliver _ | .receive _ | .lose _ | .grow _ =>
    isTrue trivial
  | .start _ _ | .commitChecker _ | .sendSnapshot _ _ | .snapshot _ _ _ | .crash _ =>
    isFalse not_false

namespace RaftService

variable (svc : RaftService n C σ α β)

inductive Action (n : ℕ) (C : Type) (α β : Type) where
  | act (a : α)
  | start (b : β)
  | raft (a : Raft.Action n C)
  | commitChecker (s : Fin n)
  | sendSnapshot (s : Fin n) (k : ℕ)
  | crash (s : Fin n)

/-- The service on raft. A message is sent on `applyCh` when the service takes it. -/
def step (w : σ × Cluster n C) : Action n C α β → Option (σ × Cluster n C)
  | .act a => (svc.act w.1 a).map fun st => (st, w.2)
  | .start b => do
    let p ← svc.asks w.1 b
    let c ← w.2.step (.start p.1 p.2)
    some (svc.told w.1 b ((w.2.servers p.1).start p.2).2, c)
  | .raft a => if a.Internal then (w.2.step a).map fun c => (w.1, c) else none
  | .commitChecker s => do
    let r ← (w.2.servers s).commitChecker
    let st ← r.2.elim (some w.1) (svc.take w.1 s)
    let c ← w.2.step (.commitChecker s)
    some (st, c)
  | .sendSnapshot s k => do
    let msg ← (w.2.servers s).snapSenders[k]?
    let st ← svc.take w.1 s msg
    let c ← w.2.step (.sendSnapshot s k)
    some (st, c)
  | .crash s => (w.2.step (.crash s)).map fun c => (svc.restart w.1 s, c)

/-- What raft does in a step of the service. -/
def raftAction (st : σ) : Action n C α β → Option (Raft.Action n C)
  | .act _ => none
  | .start b => (svc.asks st b).map fun p => .start p.1 p.2
  | .raft a => some a
  | .commitChecker s => some (.commitChecker s)
  | .sendSnapshot s k => some (.sendSnapshot s k)
  | .crash s => some (.crash s)

/-- Raft overwrites no request that is still to be encoded. -/
def NoOverwrite (w : σ × Cluster n C) (a : Action n C α β) : Prop :=
  ∀ b ∈ svc.raftAction w.1 a, w.2.NoOverwrite b

instance (w : σ × Cluster n C) (a : Action n C α β) : Decidable (svc.NoOverwrite w a) :=
  inferInstanceAs (Decidable (∀ b ∈ svc.raftAction w.1 a, w.2.NoOverwrite b))

/-- The steps of the service on raft, one case for each way through `step`. -/
inductive Step (st : σ) (c : Cluster n C) : Action n C α β → σ → Cluster n C → Prop
  | act (a : α) {st' : σ} (hact : svc.act st a = some st') : Step st c (.act a) st' c
  | start {b : β} {p : Fin n × C} {c' : Cluster n C} (hask : svc.asks st b = some p)
      (hraft : c.step (.start p.1 p.2) = some c') :
      Step st c (.start b) (svc.told st b ((c.servers p.1).start p.2).2) c'
  | raft {a : Raft.Action n C} {c' : Cluster n C} (hint : a.Internal)
      (hraft : c.step a = some c') : Step st c (.raft a) st c'
  | check {s : Fin n} {rf : Raft n C} {c' : Cluster n C}
      (hr : (c.servers s).commitChecker = some (rf, none))
      (hraft : c.step (.commitChecker s) = some c') : Step st c (.commitChecker s) st c'
  | deliver {s : Fin n} {rf : Raft n C} {msg : ApplyMsg C} {st' : σ} {c' : Cluster n C}
      (hr : (c.servers s).commitChecker = some (rf, some msg))
      (htake : svc.take st s msg = some st') (hraft : c.step (.commitChecker s) = some c') :
      Step st c (.commitChecker s) st' c'
  | sendSnapshot (s : Fin n) (k : ℕ) {msg : ApplyMsg C} {st' : σ} {c' : Cluster n C}
      (hmsg : (c.servers s).snapSenders[k]? = some msg) (htake : svc.take st s msg = some st')
      (hraft : c.step (.sendSnapshot s k) = some c') : Step st c (.sendSnapshot s k) st' c'
  | crash {s : Fin n} {c' : Cluster n C} (hraft : c.step (.crash s) = some c') :
      Step st c (.crash s) (svc.restart st s) c'

/-- The service as a client of a replicated log. -/
def client : LogClient (Fin n) C σ α β where
  act := svc.act
  asks := svc.asks
  told := svc.told
  take st s index term command := svc.take st s (.ofEntry index term command)
  restart := svc.restart

variable {svc} {st st' : σ} {c c' : Cluster n C} {r : ReplicatedLog (Fin n) C}

theorem step_cases {a : Action n C α β} (hstep : svc.step (st, c) a = some (st', c')) :
    svc.Step st c a st' c' := by
  cases a with
  | act a =>
    obtain ⟨st₁, hact, heq⟩ := Option.map_eq_some_iff.1 hstep
    cases heq
    exact .act a hact
  | start b =>
    obtain ⟨p, hask, hstep⟩ := Option.bind_eq_some_iff.1 hstep
    obtain ⟨c₁, hraft, heq⟩ := Option.bind_eq_some_iff.1 hstep
    cases heq
    exact .start hask hraft
  | raft a =>
    rw [step] at hstep
    split at hstep
    · rename_i hint
      obtain ⟨c₁, hraft, heq⟩ := Option.map_eq_some_iff.1 hstep
      cases heq
      exact .raft hint hraft
    · cases hstep
  | commitChecker s =>
    obtain ⟨⟨rf, out⟩, hr, hstep⟩ := Option.bind_eq_some_iff.1 hstep
    obtain ⟨st₁, htake, hstep⟩ := Option.bind_eq_some_iff.1 hstep
    obtain ⟨c₁, hraft, heq⟩ := Option.bind_eq_some_iff.1 hstep
    cases heq
    cases out with
    | none =>
      cases htake
      exact .check hr hraft
    | some msg => exact .deliver hr htake hraft
  | sendSnapshot s k =>
    obtain ⟨msg, hmsg, hstep⟩ := Option.bind_eq_some_iff.1 hstep
    obtain ⟨st₁, htake, hstep⟩ := Option.bind_eq_some_iff.1 hstep
    obtain ⟨c₁, hraft, heq⟩ := Option.bind_eq_some_iff.1 hstep
    cases heq
    exact .sendSnapshot s k hmsg htake hraft
  | crash s =>
    rw [step] at hstep
    obtain ⟨c₁, hraft, heq⟩ := Option.map_eq_some_iff.1 hstep
    cases heq
    exact .crash hraft

theorem Step.run_raft {a : Action n C α β} (h : svc.Step st c a st' c') :
    ∃ bs, run Cluster.step c bs = some c' := by
  have hone : ∀ {b : Raft.Action n C}, c.step b = some c' → ∃ bs, run Cluster.step c bs = some c' :=
    fun {b} hb => ⟨[b], run_cons_eq_some.2 ⟨c', hb, rfl⟩⟩
  cases h with
  | act a hact => exact ⟨[], rfl⟩
  | start _ hraft | raft _ hraft | check _ hraft | deliver _ _ hraft | sendSnapshot _ _ _ _ hraft
  | crash hraft => exact hone hraft

theorem quiet_of_internal {a : Raft.Action n C} (h : a.Internal) : c.Quiet a := by
  cases a with
  | start s command => exact h.elim
  | commitChecker s => exact h.elim
  | snapshot s index data => exact h.elim
  | crash s => exact h.elim
  | _ => trivial

/-- The service takes the message for an entry that is in the log, or is committed first. -/
theorem client_deliver (ho : c.Orderly) (h : LogSim c r) (ho' : c'.Orderly) {s : Fin n}
    {rf : Raft n C} {msg : ApplyMsg C} (hr : (c.servers s).commitChecker = some (rf, some msg))
    (hc : c.act (.commitChecker s) = some c') (htake : svc.take st s msg = some st') :
    ∃ bs r', run svc.client.step (st, r) bs = some (st', r') ∧ LogSim c' r' := by
  rw [Cluster.act, hr] at hc
  cases hc
  obtain ⟨hmsg, r₀, hr₀, hnext, h'⟩ := h.deliver ho hr rfl ho'
  have hdelivered : r₀.delivered s = r.delivered s := by
    rcases hr₀ with rfl | ⟨-, rfl⟩ <;> rfl
  have hlast : run svc.client.step (st, r₀) [.deliver s] =
      some (st', r₀.deliver s msg.commandTerm msg.command) := by
    rw [hmsg] at htake
    simp [run, LogClient.step, client, hdelivered, hnext, htake]
  rcases hr₀ with rfl | ⟨hproposed, rfl⟩
  · exact ⟨_, _, hlast, h'⟩
  · refine ⟨.commit msg.commandTerm :: [.deliver s], _, ?_, h'⟩
    rw [run_cons, LogClient.step, ReplicatedLog.step, hproposed]
    exact hlast

/-- `Start` is called, and proposes a command on the replicated log or is refused there too. -/
theorem client_start (ho : c.Orderly) (h : LogSim c r) {b : β} {p : Fin n × C}
    (hask : svc.asks st b = some p) (hc : c.act (.start p.1 p.2) = some c') :
    ∃ bs r', run svc.client.step (st, r) bs =
        some (svc.told st b ((c.servers p.1).start p.2).2, r') ∧ LogSim c' r' := by
  by_cases hl : (c.servers p.1).state = .leader
  · obtain ⟨hfree, h'⟩ := h.propose ho hl p.2 rfl rfl
    rw [start_of_leader hl]
    rw [Cluster.act, start_of_leader hl, Option.some.injEq] at hc
    subst hc
    refine ⟨[.propose b ((c.servers p.1).virtualLogIdx (c.servers p.1).log.length)
      (c.servers p.1).currentTerm], _, ?_, h'⟩
    simp [run, LogClient.step, client, ReplicatedLog.step, hask, ho.term_pos p.1, hfree]
  · rw [start_of_ne_leader hl]
    have hq : c.Quiet (.start p.1 p.2) := hl
    refine ⟨[.refuse b], r, ?_, h.other ho hq (Cluster.act_cases hc)⟩
    simp [run, LogClient.step, client, hask]

/-- **A step of the service on raft is mirrored on the replicated log.** -/
theorem step_client {a : Action n C α β} (ho : c.Orderly) (h : LogSim c r)
    (hno : svc.NoOverwrite (st, c) a) (hstep : svc.step (st, c) a = some (st', c')) :
    c'.Orderly ∧ ∃ bs r', run svc.client.step (st, r) bs = some (st', r') ∧ LogSim c' r' := by
  -- in each case the slices show nothing new, and raft has just acted
  cases step_cases hstep with
  | act a hact =>
    refine ⟨ho, [.act a], r, ?_, h⟩
    simp [run, LogClient.step, client, hact]
  | start hask hraft =>
    obtain ⟨hc, ho'⟩ := ho.step (hno _ (by rw [raftAction, hask, Option.map_some]; rfl))
      (fun _ _ _ heq => by cases heq) hraft
    exact ⟨ho', client_start ho h hask hc⟩
  | raft hint hraft =>
    obtain ⟨hc, ho'⟩ := ho.step (hno _ rfl) (fun _ _ _ heq => by subst heq; exact hint) hraft
    exact ⟨ho', [], r, rfl, h.other ho (quiet_of_internal hint) (Cluster.act_cases hc)⟩
  | check hr hraft =>
    obtain ⟨hc, ho'⟩ := ho.step (hno _ rfl) (fun _ _ _ heq => by cases heq) hraft
    have hq : c.Quiet (.commitChecker _) := fun rf' msg heq => by
      rw [hr] at heq
      cases heq
    exact ⟨ho', [], r, rfl, h.other ho hq (Cluster.act_cases hc)⟩
  | deliver hr htake hraft =>
    obtain ⟨hc, ho'⟩ := ho.step (hno _ rfl) (fun _ _ _ heq => by cases heq) hraft
    exact ⟨ho', client_deliver ho h ho' hr hc htake⟩
  | sendSnapshot s k hmsg _ _ =>
    rw [(h.due s).snapshots] at hmsg
    cases hmsg
  | crash hraft =>
    obtain ⟨hc, ho'⟩ := ho.step (hno _ rfl) (fun _ _ _ heq => by cases heq) hraft
    cases hc
    exact ⟨ho', [.restart _], _, rfl, h.restart ho'⟩

/-- **A service on raft is a service on a replicated log**: its state is one that it can be in
there. -/
theorem hosted {st₀ : σ} {as : List (Action n C α β)}
    (hno : Along svc.step svc.NoOverwrite (st₀, Cluster.init) as)
    (hrun : run svc.step (st₀, Cluster.init) as = some (st, c)) :
    c.Orderly ∧ ∃ bs r, run svc.client.step (st₀, .init) bs = some (st, r) ∧ LogSim c r :=
  run_induction (P := fun w : σ × Cluster n C => w.2.Orderly ∧
      ∃ bs r, run svc.client.step (st₀, .init) bs = some (w.1, r) ∧ LogSim w.2 r)
    (fun w a w' hP hno hstep => by
      obtain ⟨ho, bs, r, hr, hsim⟩ := hP
      obtain ⟨ho', bs', r', hr', hsim'⟩ := step_client ho hsim hno hstep
      exact ⟨ho', bs ++ bs', r', run_append_of hr hr', hsim'⟩)
    hno hrun ⟨.init, [], .init, rfl, .init⟩

end RaftService

end DistSys
