import DistSys.KVRaft.Checked
import DistSys.KVRaft.Waiting
import DistSys.Raft.Hosted

/-!
# The key/value service on raft

The clerks and servers of `Clerks` on the cluster of `Raft`, in place of the log that `System`
assumes: `HandleOp` calls the `Start` of its server's raft, `ApplyHandler` takes the messages that
raft sends on `applyCh`, and a server that crashes loses both. Logs are not compacted
(`maxraftstate` is -1).

As long as raft overwrites no request that is still to be encoded, a step of the whole is one of
`System`, or a commit and a delivery (`Follows.step`), so what the clerks see is linearizable
whatever else the servers of raft and the network between them do.

Main result: `kvraft_on_raft`.
-/

namespace DistSys.KVRaft

/-! ## The service -/

/-- `ApplyHandler` takes a message of raft; `decode` is what `labgob` makes of the bytes of a
snapshot. -/
def Server.handle (decode : Raft.Data → SnapShot) (sv : Server) (msg : Raft.ApplyMsg Op) : Server :=
  if msg.commandValid then
    let r := sv.kv.applyHandler
      (.command msg.command msg.commandIndex msg.commandTerm msg.snapshotTerm)
    { sv with
      kv := r.1
      applier :=
        match r.2, sv.waiCh msg.commandIndex with
        | some res, some ch => .sending ch msg.commandIndex res
        | _, _ => .idle
      delivered := msg.commandIndex }
  else if msg.snapshotValid then
    { sv with
      kv := (sv.kv.applyHandler
        (.snapshot (decode msg.snapshot) msg.snapshotTerm msg.snapshotIndex)).1
      delivered := msg.snapshotIndex }
  else sv

namespace System

/-- The steps in which raft has no part. -/
def Action.Local : Action → Prop
  | .start _ _ | .commit _ | .deliver _ | .restart _ => False
  | _ => True

instance : DecidablePred Action.Local
  | .start _ _ | .commit _ | .deliver _ | .restart _ => isFalse not_false
  | .invoke _ _ | .call _ _ _ | .lookup _ | .register _ | .timeout _ | .receive _ | .receiveClosed _
  | .sendClosed _ | .leave _ | .ret _ => isTrue trivial

variable (s : System)

/-- What the handler calls `Start` with, and where. -/
def asks (n h : ℕ) : Option (Fin n × Op) :=
  (s.handlers h).bind fun hd =>
    if hlt : hd.server < n then
      if hd.phase = .starting then some (⟨hd.server, hlt⟩, hd.opArgs) else none
    else none

/-- The handler goes on after `Start`. -/
def told (h : ℕ) (leader : Option (ℕ × ℤ)) : System :=
  (s.handlers h).elim s fun hd => s.setPhase h hd
    (leader.elim (.replied { err := .errNotLeader }) fun p => .started p.1 p.2)

def handle (decode : Raft.Data → SnapShot) (server : ℕ) (msg : Raft.ApplyMsg Op) : Option System :=
  match (s.servers server).applier with
  | .idle => some (s.setServer server ((s.servers server).handle decode msg))
  | .sending _ _ _ => none

def crash (server : ℕ) : System :=
  { s with handlers := fun h => (s.handlers h).map (Handler.crash server) }.setServer server .start

end System

/-- Clerks, handlers and servers. The log and the proposals of a `System` stay empty, as raft has
them. -/
def service (n : ℕ) (decode : Raft.Data → SnapShot) : RaftService n Op System System.Action ℕ where
  act s a := if a.Local then s.step a else none
  asks s h := s.asks n h
  told s h leader := s.told h leader
  take s server msg := s.handle decode server msg
  restart s server := s.crash server

/-! ## The service and its log -/

/-- The event without the number of committed entries. -/
def Event.unstamped : Event → Event
  | .invoke op _ => .invoke op 0
  | .ret op value _ => .ret op value 0

namespace System

/-- The part of the system that is not raft's. -/
def front (s : System) : System :=
  { s with log := [], proposals := fun _ _ => none, history := s.history.map Event.unstamped }

variable {s s' : System} {a : Action}

theorem front_setServer (server : ℕ) (sv : Server) :
    (s.setServer server sv).front = s.front.setServer server sv := rfl

theorem asks_eq_some {n k : ℕ} {p : Fin n × Op} (hask : s.asks n k = some p) :
    ∃ hd, s.handlers k = some hd ∧ hd.phase = .starting ∧ hd.opArgs = p.2 := by
  obtain ⟨hd, hh, hif⟩ := Option.bind_eq_some_iff.1 hask
  split at hif
  · split at hif
    · rename_i hphase
      cases hif
      exact ⟨hd, hh, hphase, rfl⟩
    · cases hif
  · cases hif

theorem told_eq {k : ℕ} {hd : Handler} (hh : s.handlers k = some hd) (leader : Option (ℕ × ℤ)) :
    s.told k leader = s.setPhase k hd
      (leader.elim (.replied { err := .errNotLeader }) fun p => .started p.1 p.2) := by
  rw [told, hh, Option.elim_some]

/-- The steps in which raft has no part do not look at the log. -/
theorem front_step (hlocal : a.Local) : s.front.step a = (s.step a).map front := by
  cases a with
  | start h leader => exact hlocal.elim
  | commit term => exact hlocal.elim
  | deliver server => exact hlocal.elim
  | restart server => exact hlocal.elim
  | invoke identifier c =>
    simp only [step, invoke, front]
    cases (s.clerks identifier).pending with
    | none => simp [front, Event.unstamped]
    | some op => rfl
  | call op server h =>
    by_cases hnew : op ∈ s.requests ∧ (s.handlers h).isNone
    · rw [step, step, call, call, if_pos hnew]
      exact if_pos hnew
    · rw [step, step, call, call, if_neg hnew]
      exact if_neg hnew
  | lookup h =>
    cases hh : s.handlers h with
    | none => simp [step, lookup, front, hh]
    | some hd =>
      cases hphase : hd.phase with
      | called =>
        cases hhis : (s.servers hd.server).kv.historyMap hd.opArgs.identifier with
        | none => simp [step, lookup, front, hh, hphase, hhis, setPhase, setHandler]
        | some hisMap =>
          simp only [step, lookup, front, hh, hphase, hhis]
          split <;> rfl
      | _ => simp [step, lookup, front, hh, hphase]
  | register h =>
    cases hh : s.handlers h with
    | none => simp [step, register, front, hh]
    | some hd =>
      cases hphase : hd.phase with
      | started index term =>
        simp [step, register, front, hh, hphase, setPhase, setHandler, setServer]
      | _ => simp [step, register, front, hh, hphase]
  | timeout h =>
    cases hh : s.handlers h with
    | none => simp [step, timeout, front, hh]
    | some hd =>
      cases hphase : hd.phase with
      | waiting index term => simp [step, timeout, front, hh, hphase, setPhase, setHandler]
      | _ => simp [step, timeout, front, hh, hphase]
  | receive server =>
    cases hsend : (s.servers server).applier with
    | idle => simp [step, receive, front, hsend]
    | sending ch i res =>
      cases hh : s.handlers ch with
      | none => simp [step, receive, front, hsend, hh]
      | some hd =>
        cases hphase : hd.phase with
        | waiting index term =>
          simp [step, receive, front, hsend, hh, hphase, setPhase, setHandler, setServer]
        | _ => simp [step, receive, front, hsend, hh, hphase]
  | receiveClosed h =>
    cases hh : s.handlers h with
    | none => simp [step, receiveClosed, front, hh]
    | some hd =>
      cases hphase : hd.phase with
      | waiting index term =>
        cases hclosed : s.closed h <;>
          simp [step, receiveClosed, front, hh, hphase, hclosed, setPhase, setHandler]
      | _ => simp [step, receiveClosed, front, hh, hphase]
  | sendClosed server =>
    cases hsend : (s.servers server).applier with
    | idle => simp [step, sendClosed, front, hsend]
    | sending ch i res =>
      cases hclosed : s.closed ch <;>
        simp [step, sendClosed, front, hsend, hclosed, setServer]
  | leave h =>
    cases hh : s.handlers h with
    | none => simp [step, leave, front, hh]
    | some hd =>
      cases hphase : hd.phase with
      | leaving index res => simp [step, leave, front, hh, hphase, setPhase, setHandler, setServer]
      | _ => simp [step, leave, front, hh, hphase]
  | ret h =>
    cases hh : s.handlers h with
    | none => simp [step, ret, front, hh]
    | some hd =>
      cases hphase : hd.phase with
      | replied res =>
        by_cases hret : (s.clerks hd.opArgs.identifier).pending = some hd.opArgs ∧ ¬ res.err.Retried
        · simp [step, ret, front, hh, hphase, hret, Event.unstamped]
        · simp only [step, ret, front, hh, hphase, if_neg hret]
          exact if_neg hret
      | _ => simp [step, ret, front, hh, hphase]

/-- What such a step leaves alone. -/
theorem Step.frame (hstep : Step s a s') (hlocal : a.Local) :
    s'.log = s.log ∧ s'.proposals = s.proposals ∧
      ∀ q, (s'.servers q).delivered = (s.servers q).delivered := by
  have hset : ∀ {server : ℕ} {sv : Server} (q : ℕ), sv.delivered = (s.servers server).delivered →
      (Function.update s.servers server sv q).delivered = (s.servers q).delivered := by
    intro server sv q hsv
    by_cases hq : q = server
    · subst hq
      rwa [Function.update_self]
    · rw [Function.update_of_ne hq]
  cases hstep with
  | refused => exact hlocal.elim
  | started => exact hlocal.elim
  | commit => exact hlocal.elim
  | deliver => exact hlocal.elim
  | restart => exact hlocal.elim
  | register => exact ⟨rfl, rfl, fun q => hset q rfl⟩
  | receive => exact ⟨rfl, rfl, fun q => hset q rfl⟩
  | sendClosed => exact ⟨rfl, rfl, fun q => hset q rfl⟩
  | leave => exact ⟨rfl, rfl, fun q => hset q rfl⟩
  | _ => exact ⟨rfl, rfl, fun _ => rfl⟩

end System

/-! ## The simulation -/

/-- The message of raft for an entry leaves `SnapshotTerm` at 0. -/
def entryOf (e : ℤ × Op) : Entry := ⟨e.2, e.1, 0⟩

/-- `s` is the service in the state `st` on the log `r`. -/
structure Follows {n : ℕ} (s st : System) (r : ReplicatedLog (Fin n) Op) : Prop where
  front : st = s.front
  log : s.log = r.log.map entryOf
  proposals : s.proposals = r.proposals
  delivered : ∀ q : Fin n, (s.servers q).delivered = r.delivered q

theorem Server.handle_ofEntry (decode : Raft.Data → SnapShot) (sv : Server) (e : ℤ × Op) :
    sv.handle decode (.ofEntry (sv.delivered + 1) e.1 e.2) = sv.take (entryOf e) := rfl

namespace Follows

variable {n : ℕ} {decode : Raft.Data → SnapShot} {s st st' : System}
  {r r' : ReplicatedLog (Fin n) Op}

theorem init : Follows (n := n) .init .init .init := ⟨rfl, rfl, rfl, fun _ => rfl⟩

theorem act (h : Follows s st r) {a : System.Action} (hlocal : a.Local)
    (hact : st.step a = some st') : ∃ s', s.step a = some s' ∧ Follows s' st' r := by
  obtain ⟨rfl, hlog, hprop, hdel⟩ := h
  rw [System.front_step hlocal] at hact
  obtain ⟨s', hs', rfl⟩ := Option.map_eq_some_iff.1 hact
  obtain ⟨hlog', hprop', hdel'⟩ := (System.step_cases hs').frame hlocal
  exact ⟨s', hs', rfl, hlog'.trans hlog, hprop'.trans hprop, fun q => (hdel' q).trans (hdel q)⟩

/-- The handler is about to call `Start`. -/
theorem asks (h : Follows s st r) {k : ℕ} {p : Fin n × Op} (hask : st.asks n k = some p) :
    ∃ hd, s.handlers k = some hd ∧ hd.phase = .starting ∧ hd.opArgs = p.2 := by
  rw [h.front] at hask
  exact System.asks_eq_some hask

theorem told_eq (h : Follows s st r) {k : ℕ} {hd : Handler} (hh : s.handlers k = some hd)
    (leader : Option (ℕ × ℤ)) : st.told k leader = s.front.setPhase k hd
      (leader.elim (.replied { err := .errNotLeader }) fun p => .started p.1 p.2) := by
  rw [h.front]
  exact System.told_eq (s := s.front) hh leader

theorem refuse (h : Follows s st r) {k : ℕ} {p : Fin n × Op} (hask : st.asks n k = some p) :
    ∃ s', s.step (.start k none) = some s' ∧ Follows s' (st.told k none) r := by
  obtain ⟨hd, hh, hphase, -⟩ := h.asks hask
  refine ⟨s.setPhase k hd (.replied { err := .errNotLeader }), ?_, h.told_eq hh none, h.log,
    h.proposals, h.delivered⟩
  simp [System.step, System.start, hh, hphase]

theorem propose (h : Follows s st r) {k index : ℕ} {term : ℤ} {p : Fin n × Op}
    (hask : st.asks n k = some p) (hterm : 0 < term) (hfree : r.proposals index term = none) :
    ∃ s', s.step (.start k (some (index, term))) = some s' ∧
      Follows s' (st.told k (some (index, term))) (r.propose p.1 index term p.2) := by
  obtain ⟨hd, hh, hphase, hop⟩ := h.asks hask
  rw [← h.proposals] at hfree
  refine ⟨(s.propose index term hd.opArgs).setPhase k hd (.started index term), ?_,
    h.told_eq hh (some (index, term)), h.log, ?_, h.delivered⟩
  · simp [System.step, System.start, hh, hphase, hterm, hfree]
  · rw [hop]
    simp only [System.setPhase, System.setHandler, System.propose, ReplicatedLog.propose,
      h.proposals]

theorem commit (h : Follows s st r) {term : ℤ} {op : Op}
    (hop : r.proposals (r.log.length + 1) term = some op) :
    ∃ s', s.step (.commit term) = some s' ∧ Follows s' st (r.commit term op) := by
  refine ⟨{ s with log := s.log ++ [⟨op, term, 0⟩] }, ?_, h.front, ?_, h.proposals, h.delivered⟩
  · rw [← h.proposals, ← List.length_map (f := entryOf), ← h.log] at hop
    simp [System.step, System.commit, hop]
  · simp [ReplicatedLog.commit, h.log, entryOf]

/-- One server has been handed `d` entries. -/
theorem delivered_setServer (h : Follows s st r) {q : Fin n} {sv : Server} {d : ℕ}
    (hsv : sv.delivered = d) (q' : Fin n) :
    (Function.update s.servers (q : ℕ) sv q').delivered = Function.update r.delivered q d q' := by
  by_cases hq : q' = q
  · subst hq
    rw [Function.update_self, Function.update_self, hsv]
  · rw [Function.update_of_ne hq, Function.update_of_ne fun heq => hq (Fin.ext heq)]
    exact h.delivered q'

theorem deliver (h : Follows s st r) {q : Fin n} {e : ℤ × Op}
    (he : r.log[r.delivered q]? = some e)
    (htake : st.handle decode q (.ofEntry (r.delivered q + 1) e.1 e.2) = some st') :
    ∃ s', s.step (.deliver q) = some s' ∧ Follows s' st' (r.deliver q e.1 e.2) := by
  have hnext : s.log[(s.servers q).delivered]? = some (entryOf e) := by
    rw [h.log, h.delivered q, List.getElem?_map, he]
    rfl
  rw [h.front, System.handle] at htake
  split at htake
  · rename_i hidle
    cases htake
    have hidle' : (s.servers q).applier = .idle := hidle
    refine ⟨s.setServer q ((s.servers q).take (entryOf e)), ?_, ?_, h.log, h.proposals,
      h.delivered_setServer ?_⟩
    · simp only [System.step, System.deliver, hidle', hnext]
      rfl
    · rw [System.front_setServer, ← Server.handle_ofEntry decode, h.delivered q]
      rfl
    · exact congrArg (· + 1) (h.delivered q)
  · cases htake

theorem restart (h : Follows s st r) (q : Fin n) :
    ∃ s', s.step (.restart q) = some s' ∧ Follows s' (st.crash q) (r.restart q) := by
  refine ⟨s.crash q, rfl, ?_, h.log, h.proposals, h.delivered_setServer rfl⟩
  rw [h.front]
  rfl

/-- **A step of the service on a replicated log is a step of the system.** -/
theorem step (h : Follows s st r) {a : LogClient.Action (Fin n) System.Action ℕ}
    (hstep : (service n decode).client.step (st, r) a = some (st', r')) :
    ∃ a' s', s.step a' = some s' ∧ Follows s' st' r' := by
  cases LogClient.step_cases hstep with
  | act a st' hact =>
    simp only [RaftService.client, service] at hact
    split at hact
    · rename_i hlocal
      exact ⟨a, h.act hlocal hact⟩
    · cases hact
  | refuse k p hask => exact ⟨_, h.refuse hask⟩
  | propose k index term p hask hterm hfree => exact ⟨_, h.propose hask hterm hfree⟩
  | commit term op hprop => exact ⟨_, h.commit hprop⟩
  | deliver q e st' he htake => exact ⟨_, h.deliver he htake⟩
  | restart q => exact ⟨_, h.restart q⟩

end Follows

/-- The state of the service on raft is that of a system with the same calls and returns; what the
steps of systems preserve holds of this one. -/
theorem exists_follows {n : ℕ} {decode : Raft.Data → SnapShot}
    {as : List (RaftService.Action n Op System.Action ℕ)} {st : System} {c : Cluster n Op}
    (hno : Along (service n decode).step (service n decode).NoOverwrite (.init, .init) as)
    (hrun : run (service n decode).step (.init, .init) as = some (st, c)) {Q : System → Prop}
    (hinit : Q .init) (hQ : ∀ s a s', Q s → s.step a = some s' → Q s') :
    ∃ s r, Q s ∧ Follows (n := n) s st r ∧ LogSim c r := by
  obtain ⟨-, bs, r, hclient, hsim⟩ := RaftService.hosted hno hrun
  obtain ⟨s, hQs, hfollows⟩ := run_invariant
    (P := fun w : System × ReplicatedLog (Fin n) Op => ∃ s, Q s ∧ Follows s w.1 w.2)
    (fun w a w' hP hstep => by
      obtain ⟨s, hQs, hfollows⟩ := hP
      obtain ⟨a', s', hs', hfollows'⟩ := hfollows.step hstep
      exact ⟨s', hQ s a' s' hQs hs', hfollows'⟩)
    hclient ⟨.init, hinit, .init⟩
  exact ⟨s, r, hQs, hfollows, hsim⟩

/-! ## What the clerks see -/

theorem calls_unstamped (history : List Event) :
    calls (history.map Event.unstamped) = calls history := by
  have hevents : events (history.map Event.unstamped) = (events history).map CallEv.unstamped := by
    rw [events, events, List.map_map, List.map_map]
    refine List.map_congr_left fun ev _ => ?_
    cases ev <;> rfl
  rw [calls, calls, hevents, returns_unstamped]
  refine List.map_congr_left fun r _ => ?_
  rw [operation, operation, hevents, callIndex_unstamped]

open Porcupine (KvInput KvOutput Operation LinearizableMap Logged Parallel fillDefault kvModel)

/-- **The key/value service on raft is linearizable.** In every run of the clerks, the servers,
their raft servers and the network that overwrites no request and leaves no call pending, what the
tests log is linearizable, and the check of it does not return `Illegal`. -/
theorem kvraft_on_raft {n : ℕ} {decode : Raft.Data → SnapShot}
    {as : List (RaftService.Action n Op System.Action ℕ)} {st : System} {c : Cluster n Op}
    (hno : Along (service n decode).step (service n decode).NoOverwrite (.init, .init) as)
    (hrun : run (service n decode).step (.init, .init) as = some (st, c))
    (hidle : ∀ op ∈ st.requests, (st.clerks op.identifier).pending = none)
    {clock : ℤ → ℤ} (hclock : Monotone clock) {operations : List (Operation KvInput KvOutput)}
    (hlog : Logged clock operations (calls st.history)) :
    LinearizableMap operations ∧
    ∀ byTime computeInfo timeout acts (p : Parallel KvInput KvOutput Value) result info,
      run (Parallel.step (fillDefault kvModel) computeInfo timeout)
        (Porcupine.checkOperations byTime kvModel operations) acts = some p →
      p.main = .done result info → result ≠ .illegal := by
  obtain ⟨s, r, ⟨inv, hclosed⟩, hfollows, -⟩ :=
    exists_follows hno hrun (Q := fun s => s.Inv ∧ s.Closed)
      ⟨System.inv_init, System.closed_init⟩
      fun _ _ _ h hs => ⟨System.step_inv h.1 hs, h.2.step h.1 hs⟩
  rw [hfollows.front] at hidle hlog
  have hlog' : Logged clock operations (calls s.history) := calls_unstamped s.history ▸ hlog
  have hlin := inv.linearizableMap hclosed hidle
  exact ⟨hlog'.linearizableMap hclock hlin, fun _ _ _ _ _ _ _ hcheck hmain =>
    hlog'.not_illegal hclock (calls_timed inv hclosed) hlin hcheck hmain⟩

/-- A run on three servers, led by server 0. Clerk 4 puts a value, and clerk 5 appends to it at the
same time; both handlers are told that the leader is outdated, and the retries find the results in
the history. Then clerk 4 gets the value. Server 1 refuses, and the handler at server 0 gives up
before the entry is committed; the result is found there later. Server 1 has applied the `Put`, and
server 2 crashes. -/
def onRaftRun : List (RaftService.Action 3 Op System.Action ℕ) :=
  let put : Op := ⟨.put, [107], [97], 0, 4⟩
  let append : Op := ⟨.append, [107], [98], 0, 5⟩
  let get : Op := ⟨.get, [107], [], 1, 4⟩
  List.flatten
    [(firstElection : List (Raft.Action 3 Op)).map .raft, [.commitChecker 0, .commitChecker 1],
      [.act (.invoke 4 (.put [107] [97])), .act (.invoke 5 (.append [107] [98])),
        .act (.call put 0 0), .act (.lookup 0), .start 0, .act (.register 0),
        .act (.call append 0 1), .act (.lookup 1), .start 1, .act (.register 1)],
      [.raft (.msgComing 0), .raft (.task 0), .raft (.deliver 4), .raft (.receive 4)],
      [.commitChecker 0, .commitChecker 0, .act (.receive 0), .act (.leave 0)],
      [.commitChecker 0, .commitChecker 0, .act (.receive 0), .act (.leave 1)],
      [.act (.call put 0 2), .act (.lookup 2), .act (.ret 2)],
      [.act (.call append 0 3), .act (.lookup 3), .act (.ret 3)],
      [.act (.invoke 4 (.get [107])), .act (.call get 1 4), .act (.lookup 4), .start 4,
        .act (.call get 0 5), .act (.lookup 5), .start 5, .act (.register 5), .act (.timeout 5),
        .act (.leave 5)],
      [.commitChecker 0, .commitChecker 0, .commitChecker 0],
      [.raft (.msgComing 0), .raft (.task 1), .raft (.deliver 5), .raft (.receive 5)],
      [.commitChecker 0, .commitChecker 0, .commitChecker 1, .commitChecker 1, .crash 2],
      [.act (.call get 0 6), .act (.lookup 6), .act (.ret 6)]]

theorem kvraft_on_raft_onRaftRun :
    ∃ st c, run (service 3 fun _ => .empty).step (.init, .init) onRaftRun = some (st, c) ∧
      calls st.history = [⟨4, ⟨1, [107], [97]⟩, 0, ⟨[]⟩, 2⟩, ⟨5, ⟨2, [107], [98]⟩, 1, ⟨[]⟩, 3⟩,
        ⟨4, ⟨0, [107], []⟩, 4, ⟨[97, 98]⟩, 5⟩] ∧ LinearizableMap (calls st.history) := by
  obtain ⟨w, hw, hidle, hcalls⟩ : ∃ w, run (service 3 fun _ => .empty).step (.init, .init)
        onRaftRun = some w ∧
      (∀ op ∈ w.1.requests, (w.1.clerks op.identifier).pending = none) ∧
      calls w.1.history = [⟨4, ⟨1, [107], [97]⟩, 0, ⟨[]⟩, 2⟩, ⟨5, ⟨2, [107], [98]⟩, 1, ⟨[]⟩, 3⟩,
        ⟨4, ⟨0, [107], []⟩, 4, ⟨[97, 98]⟩, 5⟩] := by
    decide +kernel
  refine ⟨w.1, w.2, hw, hcalls,
    (kvraft_on_raft (by decide +kernel) hw hidle monotone_id ⟨calls w.1.history, ?_, .refl _⟩).1⟩
  exact List.forall₂_same.2 fun _ _ => ⟨rfl, rfl, le_rfl, le_rfl⟩

/-! ## What the servers do -/

/-- **The replicas agree.** There is one log, of operations that were started in raft at their index
and term, and the state of every server is what it makes of a prefix of it. -/
theorem replicas_on_raft {n : ℕ} {decode : Raft.Data → SnapShot}
    {as : List (RaftService.Action n Op System.Action ℕ)} {st : System} {c : Cluster n Op}
    (hno : Along (service n decode).step (service n decode).NoOverwrite (.init, .init) as)
    (hrun : run (service n decode).step (.init, .init) as = some (st, c)) :
    ∃ log : List Entry,
      (∀ p e, log[p]? = some e → ∃ q, .start q (p + 1) e.commandTerm e.op ∈ c.trace) ∧
      ∀ q : Fin n, (st.servers q).kv = replay (log.take (st.servers q).kv.lastApplied) := by
  obtain ⟨s, r, inv, hfollows, hsim⟩ :=
    exists_follows hno hrun (Q := fun s => s.Inv) System.inv_init
      fun _ _ _ inv hs => System.step_inv inv hs
  refine ⟨s.log, fun p e he => ?_, fun q => ?_⟩
  · rw [← hsim.proposals, ← hfollows.proposals]
    exact (inv.entries p e he).1
  · have hok := inv.servers q
    have hlast : (s.servers q).kv.lastApplied = (s.servers q).delivered := by
      rw [hok.kv_eq, lastApplied_replay, List.length_take_of_le hok.delivered_le]
    rw [hfollows.front]
    exact hlast ▸ hok.kv_eq

theorem replicas_on_raft_onRaftRun :
    ∃ st c, run (service 3 fun _ => .empty).step (.init, .init) onRaftRun = some (st, c) ∧
      (st.servers 0).kv.db [107] = some [97, 98] ∧ (st.servers 1).kv.db [107] = some [97] ∧
      ∃ log : List Entry,
        (∀ p e, log[p]? = some e → ∃ q, .start q (p + 1) e.commandTerm e.op ∈ c.trace) ∧
        ∀ q : Fin 3, (st.servers q).kv = replay (log.take (st.servers q).kv.lastApplied) := by
  obtain ⟨w, hw, hdb, hdb'⟩ : ∃ w,
      run (service 3 fun _ => .empty).step (.init, .init) onRaftRun = some w ∧
      (w.1.servers 0).kv.db [107] = some [97, 98] ∧ (w.1.servers 1).kv.db [107] = some [97] := by
    decide +kernel
  exact ⟨w.1, w.2, hw, hdb, hdb', replicas_on_raft (by decide +kernel) hw⟩

end DistSys.KVRaft
