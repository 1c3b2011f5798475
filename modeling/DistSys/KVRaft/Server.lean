import Mathlib.Data.Int.Order.Basic
import Mathlib.Data.List.Induction
import Mathlib.Data.Nat.Basic
import Mathlib.Order.Basic

/-!
# The replicated key/value server

`kvraft/server.go`: the database and the table of the clients' last results that each server keeps,
and what `ApplyHandler` does with the messages of raft. Channels and handlers are in `Clerks`.

A snapshot is represented by what its bytes decode to.

* `KVServer.dbExecute`, `KVServer.applyHandler` — the functions of the source.
* `replay` — a server that has been handed the entries of a log.
* `ExecutedAt` — the position of the log at which an operation is executed. There is at most one
  (`ExecutedAt.unique`), and the database is what the executed operations make of the empty one
  (`db_replay`).
* `snapshot_transparent` — a snapshot in place of the entries it covers changes nothing.
-/

namespace DistSys.KVRaft

/-- Go strings are strings of bytes. -/
abbrev Key := List UInt8

abbrev Value := List UInt8

/-- `ok` is the empty string. -/
inductive Err where
  | ok
  | errNotLeader
  | errKeyNotExist
  | errHandleOpTimeOut
  | errChanClose
  | errLeaderOutDated
  deriving DecidableEq

inductive OType where
  | get
  | put
  | append
  deriving DecidableEq

structure Op where
  opType : OType
  key : Key
  val : Value
  seq : ℕ
  identifier : ℤ
  deriving DecidableEq

structure Result where
  lastSeq : ℕ := 0
  err : Err := .ok
  value : Value := []
  resTerm : ℤ := 0
  deriving DecidableEq

abbrev DB := Key → Option Value

abbrev HistoryMap := ℤ → Option Result

/-- The bytes of a snapshot. -/
inductive SnapShot where
  | empty
  | malformed
  | encoded (db : DB) (historyMap : HistoryMap)

/-- The messages of raft. Both kinds have the field `SnapshotTerm`. -/
inductive ApplyMsg where
  | command (command : Op) (commandIndex : ℕ) (commandTerm snapshotTerm : ℤ)
  | snapshot (snapshot : SnapShot) (snapshotTerm : ℤ) (snapshotIndex : ℕ)

structure KVServer where
  historyMap : HistoryMap
  db : DB
  lastApplied : ℕ

namespace KVServer

/-- A server that starts without a snapshot. -/
def start : KVServer := ⟨fun _ => none, fun _ => none, 0⟩

def dbExecute (db : DB) (op : Op) : DB × Result :=
  match op.opType with
  | .get =>
    match db op.key with
    | some val => (db, { lastSeq := op.seq, value := val })
    | none => (db, { lastSeq := op.seq, err := .errKeyNotExist })
  | .put => (Function.update db op.key (some op.val), { lastSeq := op.seq })
  | .append =>
    match db op.key with
    | some val => (Function.update db op.key (some (val ++ op.val)), { lastSeq := op.seq })
    | none => (Function.update db op.key (some op.val), { lastSeq := op.seq })

variable (kv : KVServer)

/-- The operation is newer than the client's last one. -/
def NeedApply (op : Op) : Prop :=
  match kv.historyMap op.identifier with
  | some hisMap => hisMap.lastSeq < op.seq
  | none => True

instance (op : Op) : Decidable (kv.NeedApply op) :=
  match h : kv.historyMap op.identifier with
  | some hisMap => decidable_of_iff (hisMap.lastSeq < op.seq) (by simp [NeedApply, h])
  | none => isTrue (by simp [NeedApply, h])

/-- Executes the operation and keeps its result. -/
def execute (op : Op) (term : ℤ) : KVServer × Result :=
  let res := { (dbExecute kv.db op).2 with resTerm := term }
  ({ kv with
      db := (dbExecute kv.db op).1
      historyMap := Function.update kv.historyMap op.identifier (some res) }, res)

/-- The result kept for the operation; that of an older one is empty. -/
def kept (op : Op) : Result :=
  match kv.historyMap op.identifier with
  | some hisMap => if hisMap.lastSeq = op.seq then hisMap else {}
  | none => {}

/-- A later operation of the client has been applied. -/
def Overtaken (op : Op) : Prop :=
  match kv.historyMap op.identifier with
  | some hisMap => op.seq < hisMap.lastSeq
  | none => False

instance (op : Op) : Decidable (kv.Overtaken op) :=
  match h : kv.historyMap op.identifier with
  | some hisMap => decidable_of_iff (op.seq < hisMap.lastSeq) (by simp [Overtaken, h])
  | none => isFalse (by simp [Overtaken, h])

/-- A command message, unless the index has been applied. The result is for the handler that waits
at this index. -/
def applyCommand (op : Op) (index : ℕ) (term : ℤ) : KVServer × Option Result :=
  if index ≤ kv.lastApplied then (kv, none)
  else
    let kv := { kv with lastApplied := index }
    let r := if kv.NeedApply op then kv.execute op term else (kv, kv.kept op)
    (r.1, some { r.2 with resTerm := term })

def genSnapShot : SnapShot := .encoded kv.db kv.historyMap

def loadSnapShot : SnapShot → KVServer
  | .empty => kv
  | .malformed => kv
  | .encoded db historyMap => { kv with db := db, historyMap := historyMap }

def applyHandler : ApplyMsg → KVServer × Option Result
  | .command op index _ term => kv.applyCommand op index term
  | .snapshot data _ index =>
    if kv.lastApplied ≤ index then ({ kv.loadSnapShot data with lastApplied := index }, none)
    else (kv, none)

end KVServer

/-! ## Replaying a log -/

/-- An entry of the log, with the terms that raft puts into its message. -/
structure Entry where
  op : Op
  commandTerm : ℤ
  snapshotTerm : ℤ
  deriving DecidableEq

/-- The messages for the entries, the first of them at index `i`. -/
def messages : ℕ → List Entry → List ApplyMsg
  | _, [] => []
  | i, e :: es => .command e.op i e.commandTerm e.snapshotTerm :: messages (i + 1) es

namespace KVServer

/-- The server is handed the messages in order. -/
def consume (kv : KVServer) (msgs : List ApplyMsg) : KVServer :=
  msgs.foldl (fun kv msg => (kv.applyHandler msg).1) kv

/-- The server is handed the next entry. -/
def applyEntry (kv : KVServer) (e : Entry) : KVServer × Option Result :=
  kv.applyCommand e.op (kv.lastApplied + 1) e.snapshotTerm

variable {kv : KVServer} {e : Entry} {op : Op}

theorem needApply_update (i : ℕ) :
    ({ kv with lastApplied := i } : KVServer).NeedApply op ↔ kv.NeedApply op := Iff.rfl

/-- An entry that is newer than the client's last one is executed. -/
theorem applyEntry_of_needApply (h : kv.NeedApply e.op) :
    kv.applyEntry e =
      (⟨Function.update kv.historyMap e.op.identifier
          (some { (dbExecute kv.db e.op).2 with resTerm := e.snapshotTerm }),
        (dbExecute kv.db e.op).1, kv.lastApplied + 1⟩,
        some { (dbExecute kv.db e.op).2 with resTerm := e.snapshotTerm }) := by
  rw [applyEntry, applyCommand, if_neg (Nat.not_succ_le_self _)]
  simp only [needApply_update, if_pos h, execute]

/-- Another entry is answered from the table. -/
theorem applyEntry_of_not_needApply (h : ¬ kv.NeedApply e.op) :
    kv.applyEntry e =
      ({ kv with lastApplied := kv.lastApplied + 1 },
        some { kv.kept e.op with resTerm := e.snapshotTerm }) := by
  rw [applyEntry, applyCommand, if_neg (Nat.not_succ_le_self _)]
  simp only [needApply_update, if_neg h]
  rfl

@[simp] theorem lastApplied_applyEntry (kv : KVServer) (e : Entry) :
    (kv.applyEntry e).1.lastApplied = kv.lastApplied + 1 := by
  by_cases h : kv.NeedApply e.op
  · rw [applyEntry_of_needApply h]
  · rw [applyEntry_of_not_needApply h]

theorem db_applyEntry (kv : KVServer) (e : Entry) :
    (kv.applyEntry e).1.db = if kv.NeedApply e.op then (dbExecute kv.db e.op).1 else kv.db := by
  split
  · rename_i h
    rw [applyEntry_of_needApply h]
  · rename_i h
    rw [applyEntry_of_not_needApply h]

theorem historyMap_applyEntry (kv : KVServer) (e : Entry) :
    (kv.applyEntry e).1.historyMap =
      if kv.NeedApply e.op then
        Function.update kv.historyMap e.op.identifier
          (some { (dbExecute kv.db e.op).2 with resTerm := e.snapshotTerm })
      else kv.historyMap := by
  split
  · rename_i h
    rw [applyEntry_of_needApply h]
  · rename_i h
    rw [applyEntry_of_not_needApply h]

theorem lastSeq_dbExecute (db : DB) (op : Op) : (dbExecute db op).2.lastSeq = op.seq := by
  unfold dbExecute
  cases op.opType with
  | get => cases db op.key <;> rfl
  | put => rfl
  | append => cases db op.key <;> rfl

/-- The results kept for a client get newer. -/
theorem lastSeq_applyEntry {id : ℤ} {hisMap : Result} (h : kv.historyMap id = some hisMap)
    (e : Entry) :
    ∃ hisMap', (kv.applyEntry e).1.historyMap id = some hisMap' ∧
      hisMap.lastSeq ≤ hisMap'.lastSeq := by
  rw [historyMap_applyEntry]
  split
  · rename_i hneed
    by_cases hid : id = e.op.identifier
    · subst hid
      have hlt : hisMap.lastSeq < e.op.seq := by simpa only [NeedApply, h] using hneed
      exact ⟨_, Function.update_self _ _ _, hlt.le.trans (lastSeq_dbExecute _ _).ge⟩
    · exact ⟨hisMap, by rw [Function.update_of_ne hid, h], le_rfl⟩
  · exact ⟨hisMap, h, le_rfl⟩

end KVServer

open KVServer

/-- A server that has been handed the entries of the log. -/
def replay (log : List Entry) : KVServer := KVServer.start.consume (messages 1 log)

/-- The messages that start at the next index are the next entries. -/
theorem consume_messages (kv : KVServer) (log : List Entry) :
    kv.consume (messages (kv.lastApplied + 1) log) =
      log.foldl (fun kv e => (kv.applyEntry e).1) kv := by
  induction log generalizing kv with
  | nil => rfl
  | cons e log ih =>
    have hnext := ih (kv.applyEntry e).1
    rw [lastApplied_applyEntry] at hnext
    exact hnext

theorem replay_eq_foldl (log : List Entry) :
    replay log = log.foldl (fun kv e => (kv.applyEntry e).1) .start :=
  consume_messages .start log

@[simp] theorem replay_concat (log : List Entry) (e : Entry) :
    replay (log ++ [e]) = ((replay log).applyEntry e).1 := by
  simp only [replay_eq_foldl, List.foldl_append, List.foldl_cons, List.foldl_nil]

@[simp] theorem lastApplied_replay (log : List Entry) : (replay log).lastApplied = log.length := by
  induction log using List.reverseRecOn with
  | nil => rfl
  | append_singleton log e ih => simp [ih]

theorem replay_take_succ {log : List Entry} {p : ℕ} (h : p < log.length) :
    replay (log.take (p + 1)) = ((replay (log.take p)).applyEntry log[p]).1 := by
  rw [List.take_succ_eq_append_getElem h, replay_concat]

/-! ## Executed positions -/

/-- The operation stands at position `p` of the log and is executed there. -/
structure ExecutedAt (log : List Entry) (op : Op) (p : ℕ) : Prop where
  entry : ∃ e, log[p]? = some e ∧ e.op = op
  needApply : (replay (log.take p)).NeedApply op

/-- The result of the operation in the state in which the entry at position `p` is applied. -/
def resultAt (log : List Entry) (op : Op) (p : ℕ) : Result :=
  (dbExecute (replay (log.take p)).db op).2

namespace ExecutedAt

variable {log : List Entry} {op op' : Op} {p q : ℕ}

theorem lt (h : ExecutedAt log op p) : p < log.length := by
  obtain ⟨e, he, -⟩ := h.entry
  exact (List.getElem?_eq_some_iff.1 he).1

theorem op_eq (h : ExecutedAt log op p) (hp : p < log.length) : log[p].op = op := by
  obtain ⟨e, he, hop⟩ := h.entry
  rw [List.getElem?_eq_getElem hp, Option.some.injEq] at he
  rw [he, hop]

theorem append (h : ExecutedAt log op p) (more : List Entry) :
    ExecutedAt (log ++ more) op p := by
  obtain ⟨e, he, hop⟩ := h.entry
  refine ⟨⟨e, by rw [List.getElem?_append_left h.lt, he], hop⟩, ?_⟩
  rw [List.take_append_of_le_length h.lt.le]
  exact h.needApply

theorem resultAt_append (h : ExecutedAt log op p) (more : List Entry) :
    resultAt (log ++ more) op p = resultAt log op p := by
  rw [resultAt, resultAt, List.take_append_of_le_length h.lt.le]

/-- From an executed operation on, the table holds a result of the client that is not older. -/
theorem lastSeq_le (h : ExecutedAt log op p) (hq : p < q) (hle : q ≤ log.length) :
    ∃ hisMap, (replay (log.take q)).historyMap op.identifier = some hisMap ∧
      op.seq ≤ hisMap.lastSeq := by
  induction q, hq using Nat.le_induction with
  | base =>
    obtain ⟨e, he, hop⟩ := h.entry
    obtain ⟨hlt, he⟩ := List.getElem?_eq_some_iff.1 he
    subst he
    rw [replay_take_succ hlt, historyMap_applyEntry, if_pos (hop ▸ h.needApply), hop]
    exact ⟨_, Function.update_self _ _ _, (lastSeq_dbExecute _ _).ge⟩
  | succ q _ ih =>
    obtain ⟨hisMap, hhis, hseq⟩ := ih (Nat.le_of_succ_le hle)
    obtain ⟨hisMap', hhis', hseq'⟩ := lastSeq_applyEntry hhis (log.get ⟨q, hle⟩)
    rw [replay_take_succ hle]
    exact ⟨hisMap', hhis', hseq.trans hseq'⟩

/-- The operations of one client are executed in the order of their numbers. -/
theorem seq_lt (hp : ExecutedAt log op p) (hq : ExecutedAt log op' q)
    (hid : op.identifier = op'.identifier) (h : p < q) : op.seq < op'.seq := by
  obtain ⟨hisMap, hhis, hseq⟩ := hp.lastSeq_le h hq.lt.le
  have hlt : hisMap.lastSeq < op'.seq := by
    simpa only [NeedApply, ← hid, hhis] using hq.needApply
  exact hseq.trans_lt hlt

/-- An operation is executed at one position at most. -/
theorem unique (hp : ExecutedAt log op p) (hq : ExecutedAt log op' q)
    (hid : op.identifier = op'.identifier) (hseq : op.seq = op'.seq) : p = q := by
  rcases Nat.lt_trichotomy p q with h | h | h
  · exact absurd hseq (hp.seq_lt hq hid h).ne
  · exact h
  · exact absurd hseq.symm (hq.seq_lt hp hid.symm h).ne

end ExecutedAt

/-- The executed operations, in order. -/
def executedOps (kv : KVServer) : List Entry → List Op
  | [] => []
  | e :: es => (if kv.NeedApply e.op then [e.op] else []) ++ executedOps (kv.applyEntry e).1 es

/-- What a sequence of operations makes of a database. -/
def sequential (db : DB) (ops : List Op) : DB := ops.foldl (fun db op => (dbExecute db op).1) db

/-- The database is what the executed operations make of the empty one. -/
theorem db_replay (log : List Entry) :
    (replay log).db = sequential (fun _ => none) (executedOps .start log) := by
  have hfrom : ∀ kv : KVServer, (log.foldl (fun kv e => (kv.applyEntry e).1) kv).db =
      sequential kv.db (executedOps kv log) := by
    induction log with
    | nil => exact fun _ => rfl
    | cons e log ih =>
      intro kv
      rw [List.foldl_cons, ih, executedOps, sequential, sequential, List.foldl_append,
        db_applyEntry]
      split <;> rfl
  rw [replay_eq_foldl, hfrom]
  rfl

/-- Every result in the table is that of the client's last executed operation. -/
theorem historyMap_replay {log : List Entry} {id : ℤ} {hisMap : Result}
    (h : (replay log).historyMap id = some hisMap) :
    ∃ op p, ExecutedAt log op p ∧ op.identifier = id ∧ op.seq = hisMap.lastSeq ∧
      hisMap.err = (resultAt log op p).err ∧ hisMap.value = (resultAt log op p).value := by
  induction log using List.reverseRecOn generalizing hisMap with
  | nil => cases h
  | append_singleton log e ih =>
    have hold : (replay log).historyMap id = some hisMap →
        ∃ op p, ExecutedAt (log ++ [e]) op p ∧ op.identifier = id ∧ op.seq = hisMap.lastSeq ∧
          hisMap.err = (resultAt (log ++ [e]) op p).err ∧
          hisMap.value = (resultAt (log ++ [e]) op p).value := by
      intro h
      obtain ⟨op, p, hp, hid, hseq, herr, hvalue⟩ := ih h
      refine ⟨op, p, hp.append _, hid, hseq, ?_⟩
      rw [hp.resultAt_append]
      exact ⟨herr, hvalue⟩
    rw [replay_concat, historyMap_applyEntry] at h
    split at h
    · rename_i hneed
      by_cases hid : id = e.op.identifier
      · subst hid
        rw [Function.update_self, Option.some.injEq] at h
        subst h
        have htake : (log ++ [e]).take log.length = log := by simp
        refine ⟨e.op, log.length, ⟨⟨e, List.getElem?_concat_length, rfl⟩, ?_⟩, rfl, ?_, ?_⟩
        · rwa [htake]
        · exact (lastSeq_dbExecute _ _).symm
        · rw [resultAt, htake]
          exact ⟨rfl, rfl⟩
      · rw [Function.update_of_ne hid] at h
        exact hold h
    · exact hold h

/-! ## Snapshots -/

theorem messages_append (i : ℕ) (es es' : List Entry) :
    messages i (es ++ es') = messages i es ++ messages (i + es.length) es' := by
  induction es generalizing i with
  | nil => rfl
  | cons e es ih =>
    simp only [List.cons_append, messages, ih, List.length_cons]
    rw [Nat.add_assoc, Nat.add_comm 1]

/-- Messages that have been applied are skipped. -/
theorem consume_applied {kv : KVServer} {i : ℕ} {es : List Entry}
    (h : i + es.length ≤ kv.lastApplied + 1) : kv.consume (messages i es) = kv := by
  induction es generalizing i with
  | nil => rfl
  | cons e es ih =>
    rw [List.length_cons] at h
    have hskip : kv.applyHandler (.command e.op i e.commandTerm e.snapshotTerm) = (kv, none) :=
      if_pos (by omega)
    rw [messages, consume, List.foldl_cons, hskip]
    exact ih (by omega)

/-- A snapshot message that is not older than the server makes it the server that took the
snapshot. -/
theorem applyHandler_snapshot {kv : KVServer} {log : List Entry}
    (h : kv.lastApplied ≤ log.length) (term : ℤ) :
    (kv.applyHandler (.snapshot (replay log).genSnapShot term log.length)).1 = replay log := by
  rw [applyHandler, if_pos h, ← lastApplied_replay log]
  rfl

/-- The entry at position `p` changes the database. -/
def ChangesDB (log : List Entry) (p : ℕ) : Prop :=
  (replay (log.take (p + 1))).db ≠ (replay (log.take p)).db

theorem ChangesDB.executedAt {log : List Entry} {p : ℕ} (h : ChangesDB log p) :
    ∃ op, ExecutedAt log op p := by
  have hlt : p < log.length := by
    by_contra hge
    exact h (by rw [List.take_of_length_le (by omega), List.take_of_length_le (by omega)])
  rw [ChangesDB, replay_take_succ hlt, db_applyEntry] at h
  by_cases hneed : (replay (log.take p)).NeedApply log[p].op
  · exact ⟨log[p].op, ⟨⟨log[p], List.getElem?_eq_getElem hlt, rfl⟩, hneed⟩⟩
  · exact absurd (if_neg hneed) h

/-- **Snapshots are transparent.** A server that takes the snapshot of the first `k` entries and is
then handed the entries from any index up to `k + 1` on is the server that was handed the whole log.
Along the log a client's operations are executed in the order of their numbers, only an executed
operation changes the database, and none changes it twice. -/
theorem snapshot_transparent (log : List Entry) {k j : ℕ} (hk : k ≤ log.length) (hj : 0 < j)
    (hjk : j ≤ k + 1) (kv : KVServer) (hkv : kv.lastApplied ≤ k) (term : ℤ) :
    kv.consume (.snapshot (replay (log.take k)).genSnapShot term k ::
        messages j (log.drop (j - 1))) = replay log ∧
      (∀ op op' p q, ExecutedAt log op p → ExecutedAt log op' q →
        op.identifier = op'.identifier → p < q → op.seq < op'.seq) ∧
      (∀ p, ChangesDB log p → ∃ op, ExecutedAt log op p) ∧
      ∀ p q (hp : p < log.length) (hq : q < log.length),
        log[p].op.identifier = log[q].op.identifier → log[p].op.seq = log[q].op.seq →
        ChangesDB log p → ChangesDB log q → p = q := by
  refine ⟨?_, fun op op' p q hp hq => hp.seq_lt hq, fun p => ChangesDB.executedAt, ?_⟩
  · have hlen : (log.take k).length = k := List.length_take_of_le hk
    have hload := applyHandler_snapshot (hkv.trans_eq hlen.symm) term
    rw [hlen] at hload
    -- The stream is a part that the snapshot covers, and the rest.
    have hsplit : log.drop (j - 1) = (log.drop (j - 1)).take (k + 1 - j) ++ log.drop k := by
      conv_lhs => rw [← List.take_append_drop (k + 1 - j) (log.drop (j - 1)), List.drop_drop]
      rw [show j - 1 + (k + 1 - j) = k by omega]
    have hcovered : ((log.drop (j - 1)).take (k + 1 - j)).length = k + 1 - j := by
      rw [List.length_take_of_le]
      rw [List.length_drop]
      omega
    have hlast : (replay (log.take k)).lastApplied = k := by rw [lastApplied_replay, hlen]
    have hskip : (replay (log.take k)).consume
        (messages j ((log.drop (j - 1)).take (k + 1 - j))) = replay (log.take k) :=
      consume_applied (by omega)
    have hrest := consume_messages (replay (log.take k)) (log.drop k)
    rw [hlast] at hrest
    rw [hsplit, messages_append, hcovered, show j + (k + 1 - j) = k + 1 by omega, consume,
      List.foldl_cons, hload, List.foldl_append]
    rw [consume] at hskip hrest
    rw [hskip, hrest, replay_eq_foldl, ← List.foldl_append, List.take_append_drop,
      replay_eq_foldl]
  · intro p q hp hq hid hseq hcp hcq
    obtain ⟨op, hop⟩ := hcp.executedAt
    obtain ⟨op', hop'⟩ := hcq.executedAt
    refine hop.unique hop' ?_ ?_
    · rw [← hop.op_eq hp, ← hop'.op_eq hq, hid]
    · rw [← hop.op_eq hp, ← hop'.op_eq hq, hseq]

/-- Two operations of a client, with a late copy of the first. -/
def lateCopyLog : List Entry :=
  [⟨⟨.put, [107], [97], 0, 3⟩, 1, 0⟩, ⟨⟨.append, [107], [98], 1, 3⟩, 1, 0⟩,
    ⟨⟨.put, [107], [97], 0, 3⟩, 1, 0⟩]

theorem snapshot_transparent_lateCopyLog :
    KVServer.start.consume (.snapshot (replay (lateCopyLog.take 2)).genSnapShot 1 2 ::
        messages 2 (lateCopyLog.drop 1)) = replay lateCopyLog ∧
      (replay lateCopyLog).db [107] = some [97, 98] :=
  ⟨(snapshot_transparent lateCopyLog (by decide) (by decide) (by decide) .start (by decide) 1).1,
    by decide⟩

end DistSys.KVRaft
