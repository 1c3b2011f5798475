import DistSys.KVRaft.Server

/-!
# Clerks and handlers of the key/value servers

`kvraft/client.go` and `HandleOp` of `kvraft/server.go`, over an abstract raft. Raft keeps one
growing list of committed entries and hands it to every server from the start, in order. `Start`
proposes an operation at an index and a term that no other proposal has; the proposal is committed
at this index later, or never.

A clerk numbers its calls and waits for one at a time. A copy of a request that it has made can
reach any server at any time: a retry, or a message that was delayed. Every step of a handler
between two uses of the lock is a step of its own, and so is the meeting of the applier with a
handler on the handler's channel.

The calls and the returns are recorded in `history`, each with the number of entries committed at
that time.
-/

namespace DistSys.KVRaft

/-! ## The clerk -/

/-- The methods of a clerk. -/
inductive Call where
  | get (key : Key)
  | put (key : Key) (value : Value)
  | append (key : Key) (value : Value)
  deriving DecidableEq

/-- The operation that a server makes of the clerk's request. -/
def Call.op (c : Call) (seq : ℕ) (identifier : ℤ) : Op :=
  match c with
  | .get key => ⟨.get, key, [], seq, identifier⟩
  | .put key value => ⟨.put, key, value, seq, identifier⟩
  | .append key value => ⟨.append, key, value, seq, identifier⟩

structure Clerk where
  seq : ℕ := 0
  /-- The request that the clerk waits for. -/
  pending : Option Op := none

/-- The clerk sends the request again. -/
def Err.Retried : Err → Prop
  | .errNotLeader | .errLeaderOutDated | .errChanClose | .errHandleOpTimeOut => True
  | .ok | .errKeyNotExist => False

instance : DecidablePred Err.Retried
  | .errNotLeader => isTrue trivial
  | .errLeaderOutDated => isTrue trivial
  | .errChanClose => isTrue trivial
  | .errHandleOpTimeOut => isTrue trivial
  | .ok => isFalse not_false
  | .errKeyNotExist => isFalse not_false

/-- What the call returns: `PutAppendReply` has no value. -/
def returned (op : Op) (res : Result) : Value :=
  match op.opType with
  | .get => res.value
  | .put => []
  | .append => []

/-! ## The handler -/

/-- Where `HandleOp` stands. -/
inductive Phase where
  /-- Before the look at the history. -/
  | called
  /-- Before `Start`. -/
  | starting
  /-- Before the channel is entered in `waiCh`. -/
  | started (startIndex : ℕ) (startTerm : ℤ)
  | waiting (startIndex : ℕ) (startTerm : ℤ)
  /-- Before the deferred function. -/
  | leaving (startIndex : ℕ) (res : Result)
  | replied (res : Result)
  /-- The server crashed. -/
  | dead
  deriving DecidableEq

/-- A call of `HandleOp`. Its channel has the same name as the handler. -/
structure Handler where
  server : ℕ
  opArgs : Op
  phase : Phase
  deriving DecidableEq

/-- What the handler makes of the message on its channel; `none` if the channel is closed. -/
def received (startTerm : ℤ) : Option Result → Result
  | some msg => if msg.resTerm = startTerm then msg else { err := .errLeaderOutDated }
  | none => { err := .errChanClose }

/-- Where `ApplyHandler` stands: at the next message, or sending on a channel. -/
inductive Applier where
  | idle
  | sending (ch : ℕ) (index : ℕ) (res : Result)

structure Server where
  kv : KVServer
  waiCh : ℕ → Option ℕ
  applier : Applier
  /-- How many entries raft has handed to the server. -/
  delivered : ℕ

def Server.start : Server := ⟨.start, fun _ => none, .idle, 0⟩

/-- `ApplyHandler` takes the next entry, and sends a result to the channel registered at its
index. -/
def Server.take (sv : Server) (e : Entry) : Server :=
  let index := sv.delivered + 1
  let r := sv.kv.applyHandler (.command e.op index e.commandTerm e.snapshotTerm)
  { sv with
    kv := r.1
    applier :=
      match r.2, sv.waiCh index with
      | some res, some ch => .sending ch index res
      | _, _ => .idle
    delivered := index }

/-! ## The system -/

/-- A call or a return, with the number of entries committed at that time. -/
inductive Event where
  | invoke (op : Op) (committed : ℕ)
  | ret (op : Op) (value : Value) (committed : ℕ)
  deriving DecidableEq

structure System where
  log : List Entry
  /-- What was proposed at an index and a term. -/
  proposals : ℕ → ℤ → Option Op
  servers : ℕ → Server
  handlers : ℕ → Option Handler
  closed : ℕ → Bool
  clerks : ℤ → Clerk
  requests : List Op
  history : List Event

namespace System

def init : System where
  log := []
  proposals _ _ := none
  servers _ := .start
  handlers _ := none
  closed _ := false
  clerks _ := {}
  requests := []
  history := []

inductive Action where
  | invoke (identifier : ℤ) (c : Call)
  | call (op : Op) (server : ℕ) (h : ℕ)
  | lookup (h : ℕ)
  /-- `Start` at a leader gives an index and a term. -/
  | start (h : ℕ) (leader : Option (ℕ × ℤ))
  | register (h : ℕ)
  | timeout (h : ℕ)
  | receive (server : ℕ)
  | receiveClosed (h : ℕ)
  | sendClosed (server : ℕ)
  | leave (h : ℕ)
  | commit (term : ℤ)
  | deliver (server : ℕ)
  | restart (server : ℕ)
  | ret (h : ℕ)

variable (s : System)

def setHandler (h : ℕ) (hd : Handler) : System :=
  { s with handlers := Function.update s.handlers h (some hd) }

def setPhase (h : ℕ) (hd : Handler) (phase : Phase) : System :=
  s.setHandler h { hd with phase := phase }

def setServer (server : ℕ) (sv : Server) : System :=
  { s with servers := Function.update s.servers server sv }

def propose (index : ℕ) (term : ℤ) (op : Op) : System :=
  { s with
    proposals := fun i t => if i = index ∧ t = term then some op else s.proposals i t }

/-- The clerk begins a call: it takes the next number. -/
def invoke (identifier : ℤ) (c : Call) : Option System :=
  let ck := s.clerks identifier
  let op := c.op ck.seq identifier
  match ck.pending with
  | some _ => none
  | none => some { s with
      clerks := Function.update s.clerks identifier ⟨ck.seq + 1, some op⟩
      requests := s.requests ++ [op]
      history := s.history ++ [.invoke op s.log.length] }

/-- A copy of a request reaches a server. -/
def call (op : Op) (server h : ℕ) : Option System :=
  if op ∈ s.requests ∧ (s.handlers h).isNone then
    some (s.setHandler h ⟨server, op, .called⟩)
  else none

/-- The handler looks for the request in the history. -/
def lookup (h : ℕ) : Option System :=
  match s.handlers h with
  | some hd =>
    match hd.phase with
    | .called =>
      match (s.servers hd.server).kv.historyMap hd.opArgs.identifier with
      | some hisMap =>
        if hisMap.lastSeq = hd.opArgs.seq then some (s.setPhase h hd (.replied hisMap))
        else some (s.setPhase h hd .starting)
      | none => some (s.setPhase h hd .starting)
    | _ => none
  | none => none

/-- `Start`, which refuses at a server that is not the leader. -/
def start (h : ℕ) (leader : Option (ℕ × ℤ)) : Option System :=
  match s.handlers h with
  | some hd =>
    match hd.phase, leader with
    | .starting, none => some (s.setPhase h hd (.replied { err := .errNotLeader }))
    | .starting, some (index, term) =>
      if 0 < term ∧ (s.proposals index term).isNone then
        some ((s.propose index term hd.opArgs).setPhase h hd (.started index term))
      else none
    | _, _ => none
  | none => none

/-- The handler enters its channel in `waiCh`, over one that is there. -/
def register (h : ℕ) : Option System :=
  match s.handlers h with
  | some hd =>
    match hd.phase with
    | .started index term =>
      let sv := s.servers hd.server
      some ((s.setPhase h hd (.waiting index term)).setServer hd.server
        { sv with waiCh := Function.update sv.waiCh index (some h) })
    | _ => none
  | none => none

def timeout (h : ℕ) : Option System :=
  match s.handlers h with
  | some hd =>
    match hd.phase with
    | .waiting index _ => some (s.setPhase h hd (.leaving index { err := .errHandleOpTimeOut }))
    | _ => none
  | none => none

/-- The applier and the handler whose channel it sends on meet. -/
def receive (server : ℕ) : Option System :=
  let sv := s.servers server
  match sv.applier with
  | .sending ch _ res =>
    match s.handlers ch with
    | some hd =>
      match hd.phase with
      | .waiting index term =>
        some ((s.setPhase ch hd (.leaving index (received term (some res)))).setServer server
          { sv with applier := .idle })
      | _ => none
    | none => none
  | .idle => none

def receiveClosed (h : ℕ) : Option System :=
  match s.handlers h with
  | some hd =>
    match hd.phase with
    | .waiting index term =>
      if s.closed h then some (s.setPhase h hd (.leaving index (received term none))) else none
    | _ => none
  | none => none

/-- The applier sends on a closed channel, and recovers from the panic. -/
def sendClosed (server : ℕ) : Option System :=
  let sv := s.servers server
  match sv.applier with
  | .sending ch _ _ =>
    if s.closed ch then some (s.setServer server { sv with applier := .idle }) else none
  | .idle => none

/-- The deferred function of `HandleOp`. -/
def leave (h : ℕ) : Option System :=
  match s.handlers h with
  | some hd =>
    match hd.phase with
    | .leaving index res =>
      let sv := s.servers hd.server
      some { (s.setPhase h hd (.replied res)).setServer hd.server
          { sv with waiCh := Function.update sv.waiCh index none } with
        closed := Function.update s.closed h true }
    | _ => none
  | none => none

/-- Raft commits a proposal at the next index. The message for a command holds its term in
`CommandTerm`; `SnapshotTerm` is left at `0`. -/
def commit (term : ℤ) : Option System :=
  match s.proposals (s.log.length + 1) term with
  | some op => some { s with log := s.log ++ [⟨op, term, 0⟩] }
  | none => none

/-- `ApplyHandler` takes the next message. It sends the result to the handler that waits at the
index. -/
def deliver (server : ℕ) : Option System :=
  let sv := s.servers server
  match sv.applier, s.log[sv.delivered]? with
  | .idle, some e =>
    let index := sv.delivered + 1
    let r := sv.kv.applyHandler (.command e.op index e.commandTerm e.snapshotTerm)
    some (s.setServer server { sv with
      kv := r.1
      applier :=
        match r.2, sv.waiCh index with
        | some res, some ch => .sending ch index res
        | _, _ => .idle
      delivered := index })
  | _, _ => none

/-- A handler after its server crashed. A reply that has been sent may still arrive. -/
def Handler.crash (server : ℕ) (hd : Handler) : Handler :=
  match hd.phase with
  | .replied _ => hd
  | _ => if hd.server = server then { hd with phase := .dead } else hd

/-- The server crashes and starts again; raft hands it the log from the start. -/
def restart (server : ℕ) : Option System :=
  some ({ s with handlers := fun h => (s.handlers h).map (Handler.crash server) }.setServer server
    .start)

/-- The clerk gets a reply for the request it waits for and does not retry. -/
def ret (h : ℕ) : Option System :=
  match s.handlers h with
  | some hd =>
    match hd.phase with
    | .replied res =>
      let ck := s.clerks hd.opArgs.identifier
      if ck.pending = some hd.opArgs ∧ ¬ res.err.Retried then
        some { s with
          clerks := Function.update s.clerks hd.opArgs.identifier { ck with pending := none }
          history := s.history ++ [.ret hd.opArgs (returned hd.opArgs res) s.log.length] }
      else none
    | _ => none
  | none => none

theorem handlers_setHandler (h : ℕ) (hd : Handler) :
    (s.setHandler h hd).handlers = Function.update s.handlers h (some hd) := rfl

theorem servers_setServer (server : ℕ) (sv : Server) :
    (s.setServer server sv).servers = Function.update s.servers server sv := rfl

def step : Action → Option System
  | .invoke identifier c => s.invoke identifier c
  | .call op server h => s.call op server h
  | .lookup h => s.lookup h
  | .start h leader => s.start h leader
  | .register h => s.register h
  | .timeout h => s.timeout h
  | .receive server => s.receive server
  | .receiveClosed h => s.receiveClosed h
  | .sendClosed server => s.sendClosed server
  | .leave h => s.leave h
  | .commit term => s.commit term
  | .deliver server => s.deliver server
  | .restart server => s.restart server
  | .ret h => s.ret h

/-! ## What one step can do -/

/-- The cases of a step. -/
inductive Step (s : System) : Action → System → Prop
  | invoke (identifier : ℤ) (c : Call) (op : Op) (hidle : (s.clerks identifier).pending = none)
      (hop : op = c.op (s.clerks identifier).seq identifier) :
    Step s (.invoke identifier c)
      { s with
        clerks := Function.update s.clerks identifier ⟨(s.clerks identifier).seq + 1, some op⟩
        requests := s.requests ++ [op]
        history := s.history ++ [.invoke op s.log.length] }
  | call (op : Op) (server h : ℕ) (hop : op ∈ s.requests) (hnew : s.handlers h = none) :
    Step s (.call op server h) (s.setHandler h ⟨server, op, .called⟩)
  | found (h : ℕ) (hd : Handler) (hisMap : Result) (hh : s.handlers h = some hd)
      (hphase : hd.phase = .called)
      (hhis : (s.servers hd.server).kv.historyMap hd.opArgs.identifier = some hisMap)
      (hseq : hisMap.lastSeq = hd.opArgs.seq) :
    Step s (.lookup h) (s.setPhase h hd (.replied hisMap))
  | unknown (h : ℕ) (hd : Handler) (hh : s.handlers h = some hd) (hphase : hd.phase = .called) :
    Step s (.lookup h) (s.setPhase h hd .starting)
  | refused (h : ℕ) (hd : Handler) (hh : s.handlers h = some hd) (hphase : hd.phase = .starting) :
    Step s (.start h none) (s.setPhase h hd (.replied { err := .errNotLeader }))
  | started (h : ℕ) (hd : Handler) (index : ℕ) (term : ℤ) (hh : s.handlers h = some hd)
      (hphase : hd.phase = .starting) (hterm : 0 < term) (hfree : s.proposals index term = none) :
    Step s (.start h (some (index, term)))
      ((s.propose index term hd.opArgs).setPhase h hd (.started index term))
  | register (h : ℕ) (hd : Handler) (index : ℕ) (term : ℤ) (hh : s.handlers h = some hd)
      (hphase : hd.phase = .started index term) :
    Step s (.register h)
      ((s.setPhase h hd (.waiting index term)).setServer hd.server
        { s.servers hd.server with
          waiCh := Function.update (s.servers hd.server).waiCh index (some h) })
  | timeout (h : ℕ) (hd : Handler) (index : ℕ) (term : ℤ) (hh : s.handlers h = some hd)
      (hphase : hd.phase = .waiting index term) :
    Step s (.timeout h) (s.setPhase h hd (.leaving index { err := .errHandleOpTimeOut }))
  | receive (server ch i : ℕ) (res : Result) (hd : Handler) (index : ℕ) (term : ℤ)
      (hsend : (s.servers server).applier = .sending ch i res) (hh : s.handlers ch = some hd)
      (hphase : hd.phase = .waiting index term) :
    Step s (.receive server)
      ((s.setPhase ch hd (.leaving index (received term (some res)))).setServer server
        { s.servers server with applier := .idle })
  | receiveClosed (h : ℕ) (hd : Handler) (index : ℕ) (term : ℤ) (hh : s.handlers h = some hd)
      (hphase : hd.phase = .waiting index term) (hclosed : s.closed h = true) :
    Step s (.receiveClosed h) (s.setPhase h hd (.leaving index (received term none)))
  | sendClosed (server ch i : ℕ) (res : Result)
      (hsend : (s.servers server).applier = .sending ch i res) (hclosed : s.closed ch = true) :
    Step s (.sendClosed server) (s.setServer server { s.servers server with applier := .idle })
  | leave (h : ℕ) (hd : Handler) (index : ℕ) (res : Result) (hh : s.handlers h = some hd)
      (hphase : hd.phase = .leaving index res) :
    Step s (.leave h)
      { (s.setPhase h hd (.replied res)).setServer hd.server
          { s.servers hd.server with
            waiCh := Function.update (s.servers hd.server).waiCh index none } with
        closed := Function.update s.closed h true }
  | commit (term : ℤ) (op : Op) (hprop : s.proposals (s.log.length + 1) term = some op) :
    Step s (.commit term) { s with log := s.log ++ [⟨op, term, 0⟩] }
  | deliver (server : ℕ) (e : Entry) (hidle : (s.servers server).applier = .idle)
      (he : s.log[(s.servers server).delivered]? = some e) :
    Step s (.deliver server) (s.setServer server ((s.servers server).take e))
  | restart (server : ℕ) :
    Step s (.restart server)
      ({ s with handlers := fun h => (s.handlers h).map (Handler.crash server) }.setServer server
        .start)
  | ret (h : ℕ) (hd : Handler) (res : Result) (hh : s.handlers h = some hd)
      (hphase : hd.phase = .replied res)
      (hpending : (s.clerks hd.opArgs.identifier).pending = some hd.opArgs)
      (hfinal : ¬ res.err.Retried) :
    Step s (.ret h)
      { s with
        clerks := Function.update s.clerks hd.opArgs.identifier
          { s.clerks hd.opArgs.identifier with pending := none }
        history := s.history ++ [.ret hd.opArgs (returned hd.opArgs res) s.log.length] }

variable {s} {s' : System}

theorem step_cases {a : Action} (hs : s.step a = some s') : Step s a s' := by
  cases a with
  | invoke identifier c =>
    simp only [step, invoke] at hs
    split at hs
    · cases hs
    · rename_i hidle
      cases hs
      exact .invoke identifier c _ hidle rfl
  | call op server h =>
    simp only [step, call] at hs
    split at hs
    · rename_i hnew
      cases hs
      exact .call op server h hnew.1 (Option.isNone_iff_eq_none.1 hnew.2)
    · cases hs
  | lookup h =>
    simp only [step, lookup] at hs
    split at hs
    · rename_i hd hh
      split at hs
      · rename_i hphase
        split at hs
        · rename_i hisMap hhis
          split at hs
          · rename_i hseq
            cases hs
            exact .found h hd hisMap hh hphase hhis hseq
          · cases hs
            exact .unknown h hd hh hphase
        · cases hs
          exact .unknown h hd hh hphase
      · cases hs
    · cases hs
  | start h leader =>
    simp only [step, start] at hs
    split at hs
    · rename_i hd hh
      split at hs
      · rename_i hphase
        cases hs
        exact .refused h hd hh hphase
      · rename_i index term hphase
        split at hs
        · rename_i hfree
          cases hs
          exact .started h hd index term hh hphase hfree.1 (Option.isNone_iff_eq_none.1 hfree.2)
        · cases hs
      · cases hs
    · cases hs
  | register h =>
    simp only [step, register] at hs
    split at hs
    · rename_i hd hh
      split at hs
      · rename_i index term hphase
        cases hs
        exact .register h hd index term hh hphase
      · cases hs
    · cases hs
  | timeout h =>
    simp only [step, timeout] at hs
    split at hs
    · rename_i hd hh
      split at hs
      · rename_i index term hphase
        cases hs
        exact .timeout h hd index term hh hphase
      · cases hs
    · cases hs
  | receive server =>
    simp only [step, receive] at hs
    split at hs
    · rename_i ch i res hsend
      split at hs
      · rename_i hd hh
        split at hs
        · rename_i index term hphase
          cases hs
          exact .receive server ch i res hd index term hsend hh hphase
        · cases hs
      · cases hs
    · cases hs
  | receiveClosed h =>
    simp only [step, receiveClosed] at hs
    split at hs
    · rename_i hd hh
      split at hs
      · rename_i index term hphase
        split at hs
        · rename_i hclosed
          cases hs
          exact .receiveClosed h hd index term hh hphase hclosed
        · cases hs
      · cases hs
    · cases hs
  | sendClosed server =>
    simp only [step, sendClosed] at hs
    split at hs
    · rename_i ch i res hsend
      split at hs
      · rename_i hclosed
        cases hs
        exact .sendClosed server ch i res hsend hclosed
      · cases hs
    · cases hs
  | leave h =>
    simp only [step, leave] at hs
    split at hs
    · rename_i hd hh
      split at hs
      · rename_i index res hphase
        cases hs
        exact .leave h hd index res hh hphase
      · cases hs
    · cases hs
  | commit term =>
    simp only [step, commit] at hs
    split at hs
    · rename_i op hprop
      cases hs
      exact .commit term op hprop
    · cases hs
  | deliver server =>
    simp only [step, deliver] at hs
    split at hs
    · rename_i e hidle he
      cases hs
      exact .deliver server e hidle he
    · cases hs
  | restart server =>
    cases hs
    exact .restart server
  | ret h =>
    simp only [step, ret] at hs
    split at hs
    · rename_i hd hh
      split at hs
      · rename_i res hphase
        split at hs
        · rename_i hret
          cases hs
          exact .ret h hd res hh hphase hret.1 hret.2
        · cases hs
      · cases hs
    · cases hs

end System

end DistSys.KVRaft
