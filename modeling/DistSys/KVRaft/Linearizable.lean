import DistSys.KVRaft.Clerks
import DistSys.Lib.Runs

/-!
# The key/value service is linearizable

Every completed call was executed at exactly one position of the committed log, after it began and
before it returned, and it returned what the operations executed before it make of its request.

A handler has a result from the history of its server or from its channel. In the first case the
result belongs to an executed operation with the number of the request, and one number is given to
one request. In the second case index and term of the message are those of the handler's own
proposal, so the message is for its own operation. Where this operation was older than the client's
last one the result is empty; but then the clerk has begun a later call and does not wait for this
one (`Justified`).

Main result: `linearizable`.
-/

namespace DistSys.KVRaft

open KVServer

/-- The value is that of the operation at the position at which it was executed, or a later
operation of the client has been executed. -/
def Justified (log : List Entry) (op : Op) (value : Value) : Prop :=
  (∃ p, ExecutedAt log op p ∧ value = (resultAt log op p).value) ∨
    ∃ op' p, ExecutedAt log op' p ∧ op'.identifier = op.identifier ∧ op.seq < op'.seq

theorem Justified.append {log : List Entry} {op : Op} {value : Value}
    (h : Justified log op value) (more : List Entry) : Justified (log ++ more) op value := by
  rcases h with ⟨p, hp, hvalue⟩ | ⟨op', p, hp, hid, hseq⟩
  · exact .inl ⟨p, hp.append more, by rw [hp.resultAt_append, hvalue]⟩
  · exact .inr ⟨op', p, hp.append more, hid, hseq⟩

theorem Justified.of_take {log : List Entry} {op : Op} {value : Value} {n : ℕ}
    (h : Justified (log.take n) op value) : Justified log op value := by
  have happend := h.append (log.drop n)
  rwa [List.take_append_drop] at happend

/-- One number of a client is given to one request. -/
def Distinct (requests : List Op) : Prop :=
  ∀ op ∈ requests, ∀ op' ∈ requests, op.identifier = op'.identifier → op.seq = op'.seq → op = op'

/-- A request whose number is larger than those of its clerk so far. -/
theorem Distinct.concat {requests : List Op} {op : Op} (h : Distinct requests)
    (hfresh : ∀ op' ∈ requests, op'.identifier = op.identifier → op'.seq < op.seq) :
    Distinct (requests ++ [op]) := by
  intro op₁ h₁ op₂ h₂ hids hseqs
  rcases List.mem_append.1 h₁ with hold₁ | hnew₁ <;>
    rcases List.mem_append.1 h₂ with hold₂ | hnew₂
  · exact h op₁ hold₁ op₂ hold₂ hids hseqs
  · rw [List.mem_singleton] at hnew₂
    subst hnew₂
    exact absurd hseqs (hfresh op₁ hold₁ hids).ne
  · rw [List.mem_singleton] at hnew₁
    subst hnew₁
    exact absurd hseqs.symm (hfresh op₂ hold₂ hids.symm).ne
  · rw [List.mem_singleton] at hnew₁ hnew₂
    rw [hnew₁, hnew₂]

section
variable {requests : List Op} (hdistinct : Distinct requests) {log : List Entry}
  (hlog : ∀ e ∈ log, e.op ∈ requests)
include hdistinct hlog

/-- The result kept for the number of a request is that of the request, whatever its term. -/
theorem executed_historyMap {op : Op} (hop : op ∈ requests) {hisMap : Result}
    (h : (replay log).historyMap op.identifier = some hisMap) (hseq : hisMap.lastSeq = op.seq) :
    ∃ p, ExecutedAt log op p ∧
      ∀ t, { hisMap with resTerm := t } = { resultAt log op p with resTerm := t } := by
  obtain ⟨op', p, hp, hid, hseq', herr, hvalue⟩ := historyMap_replay h
  obtain ⟨e, he, rfl⟩ := hp.entry
  obtain rfl := hdistinct e.op (hlog e (List.mem_of_getElem? he)) op hop hid (hseq'.trans hseq)
  refine ⟨p, hp, fun t => ?_⟩
  rw [herr, hvalue, hseq]
  simp only [resultAt, lastSeq_dbExecute]

theorem justified_historyMap {op : Op} (hop : op ∈ requests) {hisMap : Result}
    (h : (replay log).historyMap op.identifier = some hisMap) (hseq : hisMap.lastSeq = op.seq) :
    Justified log op hisMap.value := by
  obtain ⟨p, hp, hres⟩ := executed_historyMap hdistinct hlog hop h hseq
  have hvalue := congrArg Result.value (hres 0)
  exact .inl ⟨p, hp, hvalue⟩

/-- What `ApplyHandler` sends to the handler: the result of the operation, where it is executed or
has been, or nothing but the term, where a later operation has been applied. -/
theorem answer_applyEntry {e : Entry} (hop : e.op ∈ requests) :
    (∃ p, ExecutedAt (log ++ [e]) e.op p ∧ ((replay log).applyEntry e).2 =
      some { resultAt (log ++ [e]) e.op p with resTerm := e.snapshotTerm }) ∨
    ((replay log).Overtaken e.op ∧
      ((replay log).applyEntry e).2 = some { resTerm := e.snapshotTerm }) := by
  by_cases hneed : (replay log).NeedApply e.op
  · have htake : (log ++ [e]).take log.length = log := by simp
    refine .inl ⟨log.length, ⟨⟨e, List.getElem?_concat_length, rfl⟩, ?_⟩, ?_⟩
    · rwa [htake]
    · rw [applyEntry_of_needApply hneed, resultAt, htake]
  · rw [applyEntry_of_not_needApply hneed]
    cases hhis : (replay log).historyMap e.op.identifier with
    | none =>
      rw [NeedApply, hhis] at hneed
      exact absurd trivial hneed
    | some hisMap =>
      have hge : ¬ hisMap.lastSeq < e.op.seq := by simpa only [NeedApply, hhis] using hneed
      by_cases hseq : hisMap.lastSeq = e.op.seq
      · obtain ⟨p, hp, hres⟩ := executed_historyMap hdistinct hlog hop hhis hseq
        refine .inl ⟨p, hp.append [e], ?_⟩
        simp only [kept, hhis, if_pos hseq]
        rw [hres, hp.resultAt_append]
      · refine .inr ⟨?_, ?_⟩
        · simp only [Overtaken, hhis]
          omega
        · simp only [kept, hhis, if_neg hseq]

theorem justified_applyEntry {e : Entry} (hop : e.op ∈ requests) {res : Result}
    (h : ((replay log).applyEntry e).2 = some res) :
    res.resTerm = e.snapshotTerm ∧ Justified (log ++ [e]) e.op res.value := by
  rcases answer_applyEntry hdistinct hlog hop with ⟨p, hp, heq⟩ | ⟨hover, heq⟩
  · rw [heq, Option.some.injEq] at h
    subst h
    exact ⟨rfl, .inl ⟨p, hp, rfl⟩⟩
  · rw [heq, Option.some.injEq] at h
    subst h
    refine ⟨rfl, Justified.append ?_ [e]⟩
    unfold Overtaken at hover
    split at hover
    · rename_i hisMap hhis
      obtain ⟨op', p, hp, hid, hseq, -⟩ := historyMap_replay hhis
      exact .inr ⟨op', p, hp, hid, by omega⟩
    · cases hover

end

/-- A call returns the value of its result. -/
theorem returned_eq {log : List Entry} {op : Op} {res : Result} {p : ℕ}
    (h : res.value = (resultAt log op p).value) :
    returned op res = (resultAt log op p).value := by
  unfold returned
  cases hop : op.opType with
  | get => exact h
  | put => rw [resultAt, dbExecute, hop]
  | append =>
    rw [resultAt, dbExecute, hop]
    cases (replay (log.take p)).db op.key <;> rfl

/-! ## The invariant -/

def Event.committed : Event → ℕ
  | .invoke _ n => n
  | .ret _ _ n => n

namespace System

variable {s s' : System}

/-- What a handler's phase says about its operation. -/
def PhaseOk (s : System) (op : Op) : Phase → Prop
  | .called | .starting | .dead => True
  | .started index term | .waiting index term => s.proposals index term = some op
  | .leaving _ res | .replied res => ¬ res.err.Retried → Justified s.log op res.value

/-- The handler has entered its channel at the index. -/
def Phase.Past (index : ℕ) : Phase → Prop
  | .called | .starting | .started _ _ => False
  | .waiting startIndex _ => startIndex = index
  | .leaving _ _ | .replied _ | .dead => True

def Registered (s : System) (ch index : ℕ) : Prop :=
  ∃ hd, s.handlers ch = some hd ∧ Phase.Past index hd.phase

theorem Handler.opArgs_crash (hd : Handler) (server : ℕ) :
    (Handler.crash server hd).opArgs = hd.opArgs := by
  unfold Handler.crash
  split
  · rfl
  · split <;> rfl

/-- A crash ends a handler or leaves it as it is. -/
theorem Handler.phase_crash (hd : Handler) (server : ℕ) :
    (Handler.crash server hd).phase = hd.phase ∨ (Handler.crash server hd).phase = .dead := by
  unfold Handler.crash
  split
  · exact .inl rfl
  · split
    · exact .inr rfl
    · exact .inl rfl

structure ServerOk (s : System) (sv : Server) : Prop where
  delivered_le : sv.delivered ≤ s.log.length
  kv_eq : sv.kv = replay (s.log.take sv.delivered)
  channels : ∀ index ch, sv.waiCh index = some ch → s.Registered ch index
  /-- The applier sends the result of the entry at the index, with the term of the message. -/
  sending : ∀ ch index res, sv.applier = .sending ch index res → s.Registered ch index ∧
    ∃ p e, index = p + 1 ∧ s.log[p]? = some e ∧ res.resTerm = e.snapshotTerm ∧
      Justified s.log e.op res.value

structure Inv (s : System) : Prop where
  servers : ∀ server, s.ServerOk (s.servers server)
  handlers : ∀ h hd, s.handlers h = some hd → hd.opArgs ∈ s.requests ∧
    s.PhaseOk hd.opArgs hd.phase
  proposals : ∀ index term op, s.proposals index term = some op → 0 < term ∧ op ∈ s.requests
  entries : ∀ p e, s.log[p]? = some e → s.proposals (p + 1) e.commandTerm = some e.op ∧
    e.snapshotTerm = 0
  requests : ∀ op ∈ s.requests, op.seq < (s.clerks op.identifier).seq
  distinct : Distinct s.requests
  pending : ∀ c op, (s.clerks c).pending = some op →
    op.identifier = c ∧ op.seq + 1 = (s.clerks c).seq
  /-- The recorded numbers of committed entries increase. -/
  sorted : (s.history.map Event.committed).Pairwise (· ≤ ·)
  committed_le : ∀ ev ∈ s.history, ev.committed ≤ s.log.length
  invoked : ∀ op ∈ s.requests, ∃ n, .invoke op n ∈ s.history
  /-- No copy of a request is in the log before the call. -/
  after_invoke : ∀ op n, .invoke op n ∈ s.history → op ∈ s.requests ∧
    ∀ p e, s.log[p]? = some e → e.op = op → n ≤ p
  before_ret : ∀ op value n, .ret op value n ∈ s.history →
    ∃ p, ExecutedAt s.log op p ∧ value = (resultAt s.log op p).value ∧ p < n
  invoke_ret : ∀ l₁ op value n l₂, s.history = l₁ ++ Event.ret op value n :: l₂ →
    ∃ m, .invoke op m ∈ l₁

theorem inv_init : init.Inv where
  servers _ := ⟨le_rfl, rfl, nofun, nofun⟩
  handlers := nofun
  proposals := nofun
  entries p e h := by simp [init] at h
  requests := by simp [init]
  distinct := by simp [Distinct, init]
  pending := nofun
  sorted := by simp [init]
  committed_le := by simp [init]
  invoked := by simp [init]
  after_invoke := by simp [init]
  before_ret := by simp [init]
  invoke_ret := by simp [init]

/-- Entries that are appended change nothing before them. -/
theorem ServerOk.append {sv : Server} (h : s.ServerOk sv) (e : Entry) :
    ServerOk { s with log := s.log ++ [e] } sv where
  delivered_le := h.delivered_le.trans (by simp)
  kv_eq := by
    simp only
    rw [List.take_append_of_le_length h.delivered_le]
    exact h.kv_eq
  channels := h.channels
  sending ch index res hres := by
    obtain ⟨hreg, p, e', hp, he, hterm, hjust⟩ := h.sending ch index res hres
    refine ⟨hreg, p, e', hp, ?_, hterm, hjust.append [e]⟩
    simp only
    rw [List.getElem?_append_left (List.getElem?_eq_some_iff.1 he).1, he]

theorem PhaseOk.append {op : Op} {phase : Phase} (h : s.PhaseOk op phase) (e : Entry) :
    PhaseOk { s with log := s.log ++ [e] } op phase := by
  cases phase with
  | called => trivial
  | starting => trivial
  | started index term => exact h
  | waiting index term => exact h
  | leaving index res => exact fun hne => (h hne).append [e]
  | replied res => exact fun hne => (h hne).append [e]
  | dead => trivial

namespace Inv

theorem entry_mem (inv : s.Inv) {p : ℕ} {e : Entry} (h : s.log[p]? = some e) :
    e.op ∈ s.requests :=
  (inv.proposals _ _ _ (inv.entries p e h).1).2

theorem log_mem (inv : s.Inv) {n : ℕ} : ∀ e ∈ s.log.take n, e.op ∈ s.requests := by
  intro e he
  obtain ⟨p, hp⟩ := List.mem_iff_getElem?.1 (List.mem_of_mem_take he)
  exact inv.entry_mem hp

/-! ## One handler or one server -/

/-- A handler does not forget that it entered its channel. -/
theorem setHandler (inv : s.Inv) {h : ℕ} {hd : Handler} (hop : hd.opArgs ∈ s.requests)
    (hok : s.PhaseOk hd.opArgs hd.phase)
    (hpast : ∀ hd₀ index, s.handlers h = some hd₀ → Phase.Past index hd₀.phase →
      Phase.Past index hd.phase) :
    (s.setHandler h hd).Inv := by
  have hreg : ∀ {ch index}, s.Registered ch index →
      (s.setHandler h hd).Registered ch index := by
    rintro ch index ⟨hd₀, hhd, hp⟩
    rw [Registered, handlers_setHandler]
    by_cases hch : ch = h
    · subst hch
      exact ⟨hd, Function.update_self _ _ _, hpast hd₀ index hhd hp⟩
    · exact ⟨hd₀, by rw [Function.update_of_ne hch, hhd], hp⟩
  refine { inv with servers := fun server => ?_, handlers := fun h' hd' hh' => ?_ }
  · have hs := inv.servers server
    exact ⟨hs.delivered_le, hs.kv_eq, fun index ch hch => hreg (hs.channels index ch hch),
      fun ch index res hres => ⟨hreg (hs.sending ch index res hres).1,
        (hs.sending ch index res hres).2⟩⟩
  · rw [handlers_setHandler] at hh'
    by_cases hne : h' = h
    · subst hne
      rw [Function.update_self, Option.some.injEq] at hh'
      subst hh'
      exact ⟨hop, hok⟩
    · rw [Function.update_of_ne hne] at hh'
      exact inv.handlers h' hd' hh'

theorem setPhase (inv : s.Inv) {h : ℕ} {hd : Handler} (hh : s.handlers h = some hd) {phase : Phase}
    (hok : s.PhaseOk hd.opArgs phase)
    (hpast : ∀ index, Phase.Past index hd.phase → Phase.Past index phase) :
    (s.setPhase h hd phase).Inv := by
  refine inv.setHandler (inv.handlers h hd hh).1 hok fun hd₀ index hh₀ => ?_
  rw [hh, Option.some.injEq] at hh₀
  exact hh₀ ▸ hpast index

theorem setServer (inv : s.Inv) {server : ℕ} {sv : Server} (hok : s.ServerOk sv) :
    (s.setServer server sv).Inv := by
  refine { inv with servers := fun server' => ?_ }
  have hof : s.ServerOk ((s.setServer server sv).servers server') := by
    rw [servers_setServer]
    by_cases hne : server' = server
    · subst hne
      rwa [Function.update_self]
    · rw [Function.update_of_ne hne]
      exact inv.servers server'
  exact ⟨hof.delivered_le, hof.kv_eq, hof.channels, hof.sending⟩

theorem setClosed (inv : s.Inv) (closed : ℕ → Bool) : { s with closed := closed }.Inv := by
  refine { inv with servers := fun server => ?_ }
  have hs := inv.servers server
  exact ⟨hs.delivered_le, hs.kv_eq, hs.channels, hs.sending⟩

/-! ## The steps -/

theorem call (inv : s.Inv) {op : Op} {server h : ℕ} (hop : op ∈ s.requests)
    (hnew : s.handlers h = none) : (s.setHandler h ⟨server, op, .called⟩).Inv := by
  refine inv.setHandler hop trivial fun hd₀ index hh₀ => ?_
  rw [hnew] at hh₀
  cases hh₀

theorem found (inv : s.Inv) {h : ℕ} {hd : Handler} {hisMap : Result} (hh : s.handlers h = some hd)
    (hphase : hd.phase = .called)
    (hhis : (s.servers hd.server).kv.historyMap hd.opArgs.identifier = some hisMap)
    (hseq : hisMap.lastSeq = hd.opArgs.seq) : (s.setPhase h hd (.replied hisMap)).Inv := by
  refine inv.setPhase hh (fun _ => ?_) ?_
  · rw [(inv.servers hd.server).kv_eq] at hhis
    exact (justified_historyMap inv.distinct inv.log_mem (inv.handlers _ _ hh).1 hhis hseq).of_take
  · rw [hphase]
    exact fun _ => False.elim

theorem unknown (inv : s.Inv) {h : ℕ} {hd : Handler} (hh : s.handlers h = some hd)
    (hphase : hd.phase = .called) : (s.setPhase h hd .starting).Inv := by
  refine inv.setPhase hh trivial ?_
  rw [hphase]
  exact fun _ => False.elim

theorem propose (inv : s.Inv) {index : ℕ} {term : ℤ} {op : Op} (hterm : 0 < term)
    (hnone : s.proposals index term = none) (hop : op ∈ s.requests) :
    (s.propose index term op).Inv := by
  have hkeep : ∀ {i t op'}, s.proposals i t = some op' →
      (s.propose index term op).proposals i t = some op' := by
    intro i t op' h
    refine (if_neg ?_).trans h
    rintro ⟨rfl, rfl⟩
    rw [hnone] at h
    cases h
  refine { inv with
    servers := fun server => ?_
    handlers := fun h hd hh => ⟨(inv.handlers h hd hh).1, ?_⟩
    proposals := fun i t op' h => ?_
    entries := fun p e he => ⟨hkeep (inv.entries p e he).1, (inv.entries p e he).2⟩ }
  · have hs := inv.servers server
    exact ⟨hs.delivered_le, hs.kv_eq, hs.channels, hs.sending⟩
  · have hphase := (inv.handlers h hd hh).2
    cases hp : hd.phase with
    | called => trivial
    | starting => trivial
    | started i t =>
      rw [hp] at hphase
      exact hkeep hphase
    | waiting i t =>
      rw [hp] at hphase
      exact hkeep hphase
    | leaving i res =>
      rw [hp] at hphase
      exact hphase
    | replied res =>
      rw [hp] at hphase
      exact hphase
    | dead => trivial
  · simp only [System.propose] at h
    split at h
    · rename_i hit
      obtain ⟨rfl, rfl⟩ := hit
      rw [Option.some.injEq] at h
      subst h
      exact ⟨hterm, hop⟩
    · exact inv.proposals i t op' h

theorem refused (inv : s.Inv) {h : ℕ} {hd : Handler} (hh : s.handlers h = some hd)
    (hphase : hd.phase = .starting) :
    (s.setPhase h hd (.replied { err := .errNotLeader })).Inv := by
  refine inv.setPhase hh (fun hne => absurd trivial hne) ?_
  rw [hphase]
  exact fun _ => False.elim

theorem started (inv : s.Inv) {h : ℕ} {hd : Handler} {index : ℕ} {term : ℤ}
    (hh : s.handlers h = some hd) (hphase : hd.phase = .starting) (hterm : 0 < term)
    (hfree : s.proposals index term = none) :
    ((s.propose index term hd.opArgs).setPhase h hd (.started index term)).Inv := by
  have hprop := inv.propose hterm hfree (inv.handlers h hd hh).1
  refine hprop.setPhase hh ?_ ?_
  · exact if_pos ⟨rfl, rfl⟩
  · rw [hphase]
    exact fun _ => False.elim

theorem register (inv : s.Inv) {h : ℕ} {hd : Handler} {index : ℕ} {term : ℤ}
    (hh : s.handlers h = some hd) (hphase : hd.phase = .started index term) :
    ((s.setPhase h hd (.waiting index term)).setServer hd.server
      { s.servers hd.server with
        waiCh := Function.update (s.servers hd.server).waiCh index (some h) }).Inv := by
  have hok := (inv.handlers h hd hh).2
  rw [hphase] at hok
  have inv' : (s.setPhase h hd (.waiting index term)).Inv := by
    refine inv.setPhase hh hok ?_
    rw [hphase]
    exact fun _ => False.elim
  have hserver := inv'.servers hd.server
  refine inv'.setServer ⟨hserver.delivered_le, hserver.kv_eq, fun i ch hch => ?_, hserver.sending⟩
  simp only at hch
  by_cases hi : i = index
  · subst hi
    rw [Function.update_self, Option.some.injEq] at hch
    subst hch
    exact ⟨_, Function.update_self _ _ _, rfl⟩
  · rw [Function.update_of_ne hi] at hch
    exact hserver.channels i ch hch

/-- A message never has the handler's own term, as raft puts none into it. -/
theorem received_eq (inv : s.Inv) {p : ℕ} {term : ℤ} {op : Op} {res : Result} {e : Entry}
    (hprop : s.proposals (p + 1) term = some op) (he : s.log[p]? = some e)
    (hterm : res.resTerm = e.snapshotTerm) :
    received term (some res) = { err := .errLeaderOutDated } := by
  have hpos := (inv.proposals _ _ _ hprop).1
  have hzero := (inv.entries p e he).2
  rw [received, if_neg (by omega)]

theorem receive (inv : s.Inv) {server ch i : ℕ} {res : Result} {hd : Handler} {index : ℕ}
    {term : ℤ} (hsend : (s.servers server).applier = .sending ch i res)
    (hh : s.handlers ch = some hd) (hphase : hd.phase = .waiting index term) :
    ((s.setPhase ch hd (.leaving index (received term (some res)))).setServer server
      { s.servers server with applier := .idle }).Inv := by
  obtain ⟨⟨hd', hh', hpast⟩, p, e, rfl, he, hterm, -⟩ := (inv.servers server).sending _ _ _ hsend
  rw [hh, Option.some.injEq] at hh'
  subst hh'
  rw [hphase] at hpast
  -- The handler waits at the index of the message.
  obtain rfl : index = p + 1 := hpast
  have hok := (inv.handlers ch hd hh).2
  rw [hphase] at hok
  rw [inv.received_eq hok he hterm]
  have inv' : (s.setPhase ch hd (.leaving (p + 1) { err := .errLeaderOutDated })).Inv :=
    inv.setPhase hh (fun hne => absurd trivial hne) fun _ _ => trivial
  have hserver := inv'.servers server
  exact inv'.setServer ⟨hserver.delivered_le, hserver.kv_eq, hserver.channels, nofun⟩

theorem sendClosed (inv : s.Inv) (server : ℕ) :
    (s.setServer server { s.servers server with applier := .idle }).Inv := by
  have hserver := inv.servers server
  exact inv.setServer ⟨hserver.delivered_le, hserver.kv_eq, hserver.channels, nofun⟩

theorem leave (inv : s.Inv) {h : ℕ} {hd : Handler} {index : ℕ} {res : Result}
    (hh : s.handlers h = some hd) (hphase : hd.phase = .leaving index res) :
    ({ (s.setPhase h hd (.replied res)).setServer hd.server
        { s.servers hd.server with
          waiCh := Function.update (s.servers hd.server).waiCh index none } with
      closed := Function.update s.closed h true } : System).Inv := by
  have hok := (inv.handlers h hd hh).2
  rw [hphase] at hok
  have inv' : (s.setPhase h hd (.replied res)).Inv := inv.setPhase hh hok fun _ _ => trivial
  have hserver := inv'.servers hd.server
  refine setClosed (s := (s.setPhase h hd (.replied res)).setServer hd.server _) ?_ _
  refine inv'.setServer ⟨hserver.delivered_le, hserver.kv_eq, fun i ch hch => ?_, hserver.sending⟩
  simp only at hch
  by_cases hi : i = index
  · subst hi
    rw [Function.update_self] at hch
    cases hch
  · rw [Function.update_of_ne hi] at hch
    exact hserver.channels i ch hch

theorem commit (inv : s.Inv) {term : ℤ} {op : Op}
    (hprop : s.proposals (s.log.length + 1) term = some op) :
    ({ s with log := s.log ++ [⟨op, term, 0⟩] } : System).Inv where
  servers server := (inv.servers server).append _
  handlers h hd hh := ⟨(inv.handlers h hd hh).1, PhaseOk.append (inv.handlers h hd hh).2 _⟩
  proposals := inv.proposals
  entries := by
    intro p e he
    rcases getElem?_concat_cases he with hold | ⟨rfl, rfl⟩
    · exact inv.entries p e hold
    · exact ⟨hprop, rfl⟩
  requests := inv.requests
  distinct := inv.distinct
  pending := inv.pending
  sorted := inv.sorted
  committed_le ev hev := (inv.committed_le ev hev).trans (by simp)
  invoked := inv.invoked
  after_invoke := by
    intro op' n hev
    refine ⟨(inv.after_invoke op' n hev).1, fun p e he hop => ?_⟩
    rcases getElem?_concat_cases he with hold | ⟨rfl, rfl⟩
    · exact (inv.after_invoke op' n hev).2 p e hold hop
    · exact inv.committed_le _ hev
  before_ret := by
    intro op' value n hev
    obtain ⟨p, hp, hvalue, hlt⟩ := inv.before_ret op' value n hev
    exact ⟨p, hp.append _, by rw [hvalue, hp.resultAt_append], hlt⟩
  invoke_ret := inv.invoke_ret

/-- A server applies the entry at the next index. -/
theorem applyHandler_eq (inv : s.Inv) (server : ℕ) (e : Entry) :
    (s.servers server).kv.applyHandler
        (.command e.op ((s.servers server).delivered + 1) e.commandTerm e.snapshotTerm) =
      (replay (s.log.take (s.servers server).delivered)).applyEntry e := by
  have hserver := inv.servers server
  rw [applyHandler, applyEntry, lastApplied_replay, List.length_take_of_le hserver.delivered_le,
    ← hserver.kv_eq]

theorem deliver (inv : s.Inv) {server : ℕ} {e : Entry}
    (he : s.log[(s.servers server).delivered]? = some e) :
    (s.setServer server ((s.servers server).take e)).Inv := by
  have hserver := inv.servers server
  obtain ⟨hlt, hget⟩ := List.getElem?_eq_some_iff.1 he
  rw [Server.take]
  simp only [inv.applyHandler_eq]
  refine inv.setServer ⟨hlt, ?_, hserver.channels, fun ch index res hres => ?_⟩
  · simp only
    rw [replay_take_succ hlt, hget]
  · simp only at hres
    split at hres
    · rename_i res' ch' hres' hch
      cases hres
      have hjust := justified_applyEntry inv.distinct inv.log_mem (inv.entry_mem he) hres'
      refine ⟨hserver.channels _ _ hch, _, e, rfl, he, hjust.1, ?_⟩
      have htake := hjust.2
      rw [← hget, ← List.take_succ_eq_append_getElem hlt] at htake
      rw [← hget]
      exact htake.of_take
    · cases hres

theorem restart (inv : s.Inv) (server : ℕ) :
    ({ s with handlers := fun h => (s.handlers h).map (Handler.crash server) }.setServer server
      .start).Inv := by
  refine Inv.setServer ?_ ⟨Nat.zero_le _, rfl, nofun, nofun⟩
  have hreg : ∀ {ch index}, s.Registered ch index → Registered
      { s with handlers := fun h => (s.handlers h).map (Handler.crash server) } ch index := by
    rintro ch index ⟨hd, hh, hp⟩
    refine ⟨Handler.crash server hd, by simp only [hh, Option.map_some], ?_⟩
    rcases Handler.phase_crash hd server with h | h
    · rwa [h]
    · rw [h]
      trivial
  refine { inv with servers := fun server => ?_, handlers := fun h hd' hh' => ?_ }
  · have hs := inv.servers server
    exact ⟨hs.delivered_le, hs.kv_eq, fun index ch hch => hreg (hs.channels index ch hch),
      fun ch index res hres => ⟨hreg (hs.sending ch index res hres).1,
        (hs.sending ch index res hres).2⟩⟩
  · obtain ⟨hd, hh, rfl⟩ := Option.map_eq_some_iff.1 hh'
    rw [Handler.opArgs_crash]
    refine ⟨(inv.handlers h hd hh).1, ?_⟩
    rcases Handler.phase_crash hd server with h' | h'
    · rw [h']
      exact (inv.handlers h hd hh).2
    · rw [h']
      trivial

theorem sorted_concat (inv : s.Inv) {ev : Event} (hev : ev.committed = s.log.length) :
    ((s.history ++ [ev]).map Event.committed).Pairwise (· ≤ ·) := by
  rw [List.map_append, List.pairwise_append]
  refine ⟨inv.sorted, by simp, fun n hn m hm => ?_⟩
  obtain ⟨ev', hev', rfl⟩ := List.mem_map.1 hn
  rw [List.map_singleton, List.mem_singleton] at hm
  rw [hm, hev]
  exact inv.committed_le ev' hev'

theorem committed_le_concat (inv : s.Inv) {ev : Event} (hev : ev.committed = s.log.length) :
    ∀ ev' ∈ s.history ++ [ev], ev'.committed ≤ s.log.length := by
  intro ev' hev'
  rcases List.mem_append.1 hev' with hold | hnew
  · exact inv.committed_le ev' hold
  · rw [List.mem_singleton] at hnew
    rw [hnew, hev]

/-- The clerk takes a number that no request has. -/
theorem invoke (inv : s.Inv) {c : ℤ} {k : Call} {op : Op}
    (hop : op = k.op (s.clerks c).seq c) :
    ({ s with
      clerks := Function.update s.clerks c ⟨(s.clerks c).seq + 1, some op⟩
      requests := s.requests ++ [op]
      history := s.history ++ [.invoke op s.log.length] } : System).Inv := by
  have hid : op.identifier = c := by
    rw [hop]
    cases k <;> rfl
  have hseq : op.seq = (s.clerks c).seq := by
    rw [hop]
    cases k <;> rfl
  have hfresh : ∀ op' ∈ s.requests, op'.identifier = c → op'.seq < op.seq := by
    rintro op' hmem rfl
    rw [hseq]
    exact inv.requests op' hmem
  exact {
    servers := fun server =>
      ⟨(inv.servers server).delivered_le, (inv.servers server).kv_eq,
        (inv.servers server).channels, (inv.servers server).sending⟩
    handlers := fun h hd hh =>
      ⟨List.mem_append_left _ (inv.handlers h hd hh).1, (inv.handlers h hd hh).2⟩
    proposals := fun index term op' h =>
      ⟨(inv.proposals index term op' h).1,
        List.mem_append_left _ (inv.proposals index term op' h).2⟩
    entries := inv.entries
    requests := by
      intro op' hmem
      simp only
      by_cases hc : op'.identifier = c
      · rw [hc, Function.update_self]
        rcases List.mem_append.1 hmem with hold | hnew
        · have hlt := hfresh op' hold hc
          rw [hseq] at hlt
          exact hlt.trans (Nat.lt_succ_self _)
        · rw [List.mem_singleton] at hnew
          rw [hnew, hseq]
          exact Nat.lt_succ_self _
      · rw [Function.update_of_ne hc]
        rcases List.mem_append.1 hmem with hold | hnew
        · exact inv.requests op' hold
        · rw [List.mem_singleton] at hnew
          exact absurd (hnew ▸ hid) hc
    distinct := inv.distinct.concat fun op' hmem hids => hfresh op' hmem (hids.trans hid)
    pending := by
      intro c' op' hpend
      simp only at hpend ⊢
      by_cases hc : c' = c
      · subst hc
        rw [Function.update_self] at hpend ⊢
        rw [Option.some.injEq] at hpend
        subst hpend
        exact ⟨hid, by rw [hseq]⟩
      · rw [Function.update_of_ne hc] at hpend ⊢
        exact inv.pending c' op' hpend
    sorted := inv.sorted_concat rfl
    committed_le := inv.committed_le_concat rfl
    invoked := by
      intro op' hmem
      rcases List.mem_append.1 hmem with hold | hnew
      · obtain ⟨n, hn⟩ := inv.invoked op' hold
        exact ⟨n, List.mem_append_left _ hn⟩
      · rw [List.mem_singleton] at hnew
        exact ⟨s.log.length, by rw [hnew]; exact List.mem_append_right _ List.mem_cons_self⟩
    after_invoke := by
      intro op' n hev
      rcases List.mem_append.1 hev with hold | hnew
      · exact ⟨List.mem_append_left _ (inv.after_invoke op' n hold).1,
          (inv.after_invoke op' n hold).2⟩
      · rw [List.mem_singleton] at hnew
        cases hnew
        refine ⟨List.mem_append_right _ List.mem_cons_self, fun p e he hop' => ?_⟩
        have hmem := inv.entry_mem he
        rw [hop'] at hmem
        exact absurd (hfresh op hmem hid) (Nat.lt_irrefl _)
    before_ret := by
      intro op' value n hev
      rcases List.mem_append.1 hev with hold | hnew
      · exact inv.before_ret op' value n hold
      · rw [List.mem_singleton] at hnew
        cases hnew
    invoke_ret := by
      intro l₁ op' value n l₂ hh
      rcases concat_eq_append_cons hh with ⟨l₃, -, hold⟩ | ⟨-, hnew, -⟩
      · exact inv.invoke_ret l₁ op' value n l₃ hold
      · cases hnew }

/-- The clerk waits for the last request it made, so no later operation of it was executed. -/
theorem executed_of_pending (inv : s.Inv) {c : ℤ} {op : Op} {value : Value}
    (hpend : (s.clerks c).pending = some op) (h : Justified s.log op value) :
    ∃ p, ExecutedAt s.log op p ∧ value = (resultAt s.log op p).value := by
  rcases h with hexec | ⟨op', p, hp, hid, hseq⟩
  · exact hexec
  · exfalso
    obtain ⟨e, he, rfl⟩ := hp.entry
    obtain ⟨rfl, hnext⟩ := inv.pending c op hpend
    have hlt := inv.requests e.op (inv.entry_mem he)
    rw [hid] at hlt
    omega

theorem ret (inv : s.Inv) {h : ℕ} {hd : Handler} {res : Result} (hh : s.handlers h = some hd)
    (hphase : hd.phase = .replied res)
    (hpending : (s.clerks hd.opArgs.identifier).pending = some hd.opArgs)
    (hfinal : ¬ res.err.Retried) :
    ({ s with
      clerks := Function.update s.clerks hd.opArgs.identifier
        { s.clerks hd.opArgs.identifier with pending := none }
      history := s.history ++ [.ret hd.opArgs (returned hd.opArgs res) s.log.length] } :
      System).Inv := by
  have hok := (inv.handlers h hd hh).2
  rw [hphase] at hok
  obtain ⟨p, hp, hvalue⟩ := inv.executed_of_pending hpending (hok hfinal)
  have hseq : ∀ c, (Function.update s.clerks hd.opArgs.identifier
      { s.clerks hd.opArgs.identifier with pending := none } c).seq = (s.clerks c).seq := by
    intro c
    by_cases hc : c = hd.opArgs.identifier
    · subst hc
      rw [Function.update_self]
    · rw [Function.update_of_ne hc]
  exact { inv with
    servers := fun server =>
      ⟨(inv.servers server).delivered_le, (inv.servers server).kv_eq,
        (inv.servers server).channels, (inv.servers server).sending⟩
    handlers := fun h hd hh => inv.handlers h hd hh
    requests := fun op hop => (inv.requests op hop).trans_eq (hseq _).symm
    pending := by
      intro c op hpend
      simp only [hseq]
      simp only at hpend
      by_cases hc : c = hd.opArgs.identifier
      · subst hc
        rw [Function.update_self] at hpend
        cases hpend
      · rw [Function.update_of_ne hc] at hpend
        exact inv.pending c op hpend
    sorted := inv.sorted_concat rfl
    committed_le := inv.committed_le_concat rfl
    invoked := by
      intro op hop
      obtain ⟨n, hn⟩ := inv.invoked op hop
      exact ⟨n, List.mem_append_left _ hn⟩
    after_invoke := by
      intro op n hev
      rcases List.mem_append.1 hev with hold | hnew
      · exact inv.after_invoke op n hold
      · rw [List.mem_singleton] at hnew
        cases hnew
    before_ret := by
      intro op value n hev
      rcases List.mem_append.1 hev with hold | hnew
      · exact inv.before_ret op value n hold
      · rw [List.mem_singleton] at hnew
        cases hnew
        exact ⟨p, hp, by rw [returned_eq hvalue], hp.lt⟩
    invoke_ret := by
      intro l₁ op value n l₂ hh'
      rcases concat_eq_append_cons hh' with ⟨l₃, -, hold⟩ | ⟨rfl, hnew, -⟩
      · exact inv.invoke_ret l₁ op value n l₃ hold
      · cases hnew
        exact inv.invoked _ (inv.handlers h hd hh).1 }

end Inv

theorem step_inv {a : Action} (inv : s.Inv) (hs : s.step a = some s') : s'.Inv := by
  cases step_cases hs with
  | invoke c k op hidle hop => exact inv.invoke hop
  | call op server h hop hnew => exact inv.call hop hnew
  | found h hd hisMap hh hphase hhis hseq => exact inv.found hh hphase hhis hseq
  | unknown h hd hh hphase => exact inv.unknown hh hphase
  | refused h hd hh hphase => exact inv.refused hh hphase
  | started h hd index term hh hphase hterm hfree => exact inv.started hh hphase hterm hfree
  | register h hd index term hh hphase => exact inv.register hh hphase
  | timeout h hd index term hh hphase =>
    exact inv.setPhase hh (fun hne => absurd trivial hne) fun _ _ => trivial
  | receive server ch i res hd index term hsend hh hphase => exact inv.receive hsend hh hphase
  | receiveClosed h hd index term hh hphase hclosed =>
    exact inv.setPhase hh (fun hne => absurd trivial hne) fun _ _ => trivial
  | sendClosed server ch i res hsend hclosed => exact inv.sendClosed server
  | leave h hd index res hh hphase => exact inv.leave hh hphase
  | commit term op hprop => exact inv.commit hprop
  | deliver server e hidle he => exact inv.deliver he
  | restart server => exact inv.restart server
  | ret h hd res hh hphase hpending hfinal => exact inv.ret hh hphase hpending hfinal

end System

/-- **The service is linearizable.** For every call that has returned there is exactly one position
of the committed log at which its operation was executed. The position was committed after the call
began and before it returned, the call returned what the operation gives after the operations
executed before it, and a call that began later is executed at a later position. -/
theorem linearizable {as : List System.Action} {s : System}
    (hrun : run System.step .init as = some s) :
    ∀ l₁ op value n l₂, s.history = l₁ ++ Event.ret op value n :: l₂ →
      ∃ p, ExecutedAt s.log op p ∧ (∀ q, ExecutedAt s.log op q → q = p) ∧
        value = (dbExecute (sequential (fun _ => none)
          (executedOps .start (s.log.take p))) op).2.value ∧
        (∃ m, .invoke op m ∈ l₁ ∧ m ≤ p) ∧ p < n ∧
        ∀ op' m q, .invoke op' m ∈ l₂ → ExecutedAt s.log op' q → p < q := by
  have inv : s.Inv :=
    run_invariant (fun _ _ _ inv hs => System.step_inv inv hs) hrun System.inv_init
  have hafter : ∀ op m q, .invoke op m ∈ s.history → ExecutedAt s.log op q → m ≤ q := by
    intro op m q hev hq
    obtain ⟨e, he, hop⟩ := hq.entry
    exact (inv.after_invoke op m hev).2 q e he hop
  intro l₁ op value n l₂ hhist
  obtain ⟨p, hp, hvalue, hlt⟩ := inv.before_ret op value n (by simp [hhist])
  obtain ⟨m, hm⟩ := inv.invoke_ret l₁ op value n l₂ hhist
  refine ⟨p, hp, fun q hq => hq.unique hp rfl rfl, ?_, ⟨m, hm, ?_⟩, hlt, ?_⟩
  · rw [hvalue, resultAt, db_replay]
  · exact hafter op m p (by simp [hhist, hm]) hp
  · intro op' m' q hev hq
    have hsorted := inv.sorted
    rw [hhist, List.map_append, List.map_cons, List.pairwise_append, List.pairwise_cons]
      at hsorted
    have hle : n ≤ m' := hsorted.2.1.1 m' (List.mem_map.2 ⟨_, hev, rfl⟩)
    exact hlt.trans_le (hle.trans (hafter op' m' q (by simp [hhist, hev]) hq))

/-- A clerk's `Put` and another's `Get`. Each handler that calls `Start` takes the leader for
outdated when its entry is applied, and the retry finds the result in the history; one server
refuses the `Get`. -/
def retriedRun : List System.Action :=
  let put : Op := ⟨.put, [107], [97], 0, 3⟩
  let get : Op := ⟨.get, [107], [], 0, 4⟩
  [.invoke 3 (.put [107] [97]), .call put 0 0, .lookup 0, .start 0 (some (1, 1)), .register 0,
    .commit 1, .deliver 0, .receive 0, .leave 0, .call put 0 1, .lookup 1, .ret 1,
    .invoke 4 (.get [107]), .call get 1 2, .lookup 2, .start 2 none,
    .call get 0 3, .lookup 3, .start 3 (some (2, 1)), .register 3, .commit 1, .deliver 0,
    .receive 0, .leave 3, .call get 0 4, .lookup 4, .ret 4]

theorem linearizable_retriedRun :
    ∃ s, run System.step .init retriedRun = some s ∧
      .ret ⟨.get, [107], [], 0, 4⟩ [97] 2 ∈ s.history ∧
      ∃ p, ExecutedAt s.log ⟨.get, [107], [], 0, 4⟩ p ∧ p < 2 := by
  have h : ∃ s, run System.step .init retriedRun = some s ∧
      s.history = [.invoke ⟨.put, [107], [97], 0, 3⟩ 0, .ret ⟨.put, [107], [97], 0, 3⟩ [] 1,
        .invoke ⟨.get, [107], [], 0, 4⟩ 1, .ret ⟨.get, [107], [], 0, 4⟩ [97] 2] := by
    decide +kernel
  obtain ⟨s, hs, hhist⟩ := h
  obtain ⟨p, hp, -, -, -, hlt, -⟩ := linearizable hs [_, _, _] _ _ _ [] hhist
  exact ⟨s, hs, by simp [hhist], p, hp, hlt⟩

end DistSys.KVRaft
