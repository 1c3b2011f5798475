import DistSys.KVRaft.Linearizable
import DistSys.Lib.CallHistory
import DistSys.Porcupine.OpLog

/-!
# The check of the key/value service

The tests of `kvraft` log the calls of the clerks and check that they are linearizable. For a run in
which every call has returned, the check does not fail (`kvraft_check_passes`): an operation takes
effect at the position of the log at which it is executed, which was not there yet when it was
called, and was there when it returned.
-/

namespace DistSys.KVRaft

open KVServer
open Porcupine (KvInput KvOutput Operation)

/-! ## The calls of a run -/

/-- What the tests log of the request. -/
def Op.kvInput (op : Op) : KvInput :=
  match op.opType with
  | .get => ⟨0, op.key, []⟩
  | .put => ⟨1, op.key, op.val⟩
  | .append => ⟨2, op.key, op.val⟩

/-- The event with the operation as the name of the call. -/
def Event.ev : Event → CallEv Op Value
  | .invoke op n => .call op n
  | .ret op value n => .ret op value n

def events (history : List Event) : List (CallEv Op Value) := history.map Event.ev

/-- The call that returned; its times are places in the history. -/
def operation (history : List Event) (r : Return Op Value) : Operation KvInput KvOutput where
  clientId := r.id.identifier
  input := r.id.kvInput
  call := callIndex (events history) r.id
  output := ⟨r.value⟩
  ret := r.index

/-- The calls that have returned. -/
def calls (history : List Event) : List (Operation KvInput KvOutput) :=
  (returns (events history)).map (operation history)

theorem call_mem_events {history : List Event} {op : Op} {n : ℕ} :
    .call op n ∈ events history ↔ .invoke op n ∈ history := by
  rw [events, List.mem_map]
  constructor
  · rintro ⟨ev, hev, heq⟩
    cases ev with
    | invoke op' n' => cases heq; exact hev
    | ret => cases heq
  · exact fun h => ⟨_, h, rfl⟩

theorem ret_mem_events {history : List Event} {op : Op} {value : Value} {n : ℕ} :
    .ret op value n ∈ events history ↔ .ret op value n ∈ history := by
  rw [events, List.mem_map]
  constructor
  · rintro ⟨ev, hev, heq⟩
    cases ev with
    | invoke => cases heq
    | ret op' value' n' => cases heq; exact hev
  · exact fun h => ⟨_, h, rfl⟩

namespace System

variable {s s' : System}

/-! ## Every call returns once -/

/-- Requests are pending or have returned, and not both. -/
structure Closed (s : System) : Prop where
  nodup : (returnedIds (events s.history)).Nodup
  pending : ∀ c op, (s.clerks c).pending = some op → op ∉ returnedIds (events s.history)
  requests : ∀ op ∈ s.requests, op ∈ returnedIds (events s.history) ∨
    (s.clerks op.identifier).pending = some op

theorem closed_init : init.Closed := ⟨.nil, nofun, by simp [init]⟩

/-- What a step does to the calls. -/
theorem Step.calls {a : Action} (h : Step s a s') :
    (s'.history = s.history ∧ s'.clerks = s.clerks ∧ s'.requests = s.requests) ∨
    (∃ op, (s.clerks op.identifier).pending = none ∧ op.seq = (s.clerks op.identifier).seq ∧
      s'.history = s.history ++ [.invoke op s.log.length] ∧
      s'.clerks = Function.update s.clerks op.identifier ⟨op.seq + 1, some op⟩ ∧
      s'.requests = s.requests ++ [op]) ∨
    ∃ op value, (s.clerks op.identifier).pending = some op ∧
      s'.history = s.history ++ [.ret op value s.log.length] ∧
      s'.clerks = Function.update s.clerks op.identifier
        { s.clerks op.identifier with pending := none } ∧ s'.requests = s.requests := by
  cases h with
  | invoke identifier c op hidle hop =>
    have hid : op.identifier = identifier := by
      rw [hop]
      cases c <;> rfl
    have hseq : op.seq = (s.clerks identifier).seq := by
      rw [hop]
      cases c <;> rfl
    subst hid
    exact .inr (.inl ⟨op, hidle, hseq, rfl, by rw [hseq], rfl⟩)
  | ret h hd res hh hphase hpending hfinal =>
    exact .inr (.inr ⟨hd.opArgs, _, hpending, rfl, rfl, rfl⟩)
  | _ => exact .inl ⟨rfl, rfl, rfl⟩

theorem Inv.callHistory (inv : s.Inv) (hnodup : (returnedIds (events s.history)).Nodup) :
    CallHistory (events s.history) where
  sorted := by
    have hstamp : CallEv.stamp ∘ Event.ev = Event.committed := by
      funext ev
      cases ev <;> rfl
    rw [events, List.map_map, hstamp]
    exact inv.sorted
  called l₁ op value n l₂ hsplit := by
    obtain ⟨h₁, h₂, hhist, rfl, hrest⟩ := List.map_eq_append_iff.1 hsplit
    obtain ⟨ev, h₃, rfl, hev, -⟩ := List.map_eq_cons_iff.1 hrest
    cases ev with
    | invoke op' m => cases hev
    | ret op' value' m =>
      cases hev
      obtain ⟨m', hm'⟩ := inv.invoke_ret h₁ _ _ _ h₃ hhist
      exact ⟨m', call_mem_events.2 hm'⟩
  nodup := hnodup

theorem Inv.returned_mem (inv : s.Inv) {op : Op} (h : op ∈ returnedIds (events s.history)) :
    op ∈ s.requests := by
  obtain ⟨r, hr, rfl⟩ := List.mem_map.1 h
  obtain ⟨n, hn⟩ := mem_returns.1 hr
  obtain ⟨l₁, l₂, hhist⟩ := List.append_of_mem (ret_mem_events.1 (List.mem_of_getElem? hn))
  obtain ⟨m, hm⟩ := inv.invoke_ret l₁ _ _ n l₂ hhist
  exact (inv.after_invoke r.id m (by simp [hhist, hm])).1

theorem events_concat (history : List Event) (ev : Event) :
    events (history ++ [ev]) = events history ++ [ev.ev] := by
  rw [events, List.map_append, List.map_singleton, events]

theorem Closed.step {a : Action} (h : s.Closed) (inv : s.Inv) (hs : s.step a = some s') :
    s'.Closed := by
  rcases (step_cases hs).calls with ⟨hhist, hclerks, hreq⟩ | ⟨op, hidle, hseq, hhist, hclerks, hreq⟩ |
    ⟨op, value, hpending, hhist, hclerks, hreq⟩
  · refine ⟨?_, ?_, ?_⟩ <;> rw [hhist]
    · exact h.nodup
    · rw [hclerks]
      exact h.pending
    · rw [hclerks, hreq]
      exact h.requests
  · -- the request is new
    have hnew : op ∉ returnedIds (events s.history) := fun hmem =>
      absurd (inv.requests op (inv.returned_mem hmem)) hseq.not_lt
    refine ⟨?_, fun c op' hop' => ?_, fun op' hop' => ?_⟩ <;>
      rw [hhist, events_concat, Event.ev, returnedIds_concat_call]
    · exact h.nodup
    · rw [hclerks] at hop'
      by_cases hc : c = op.identifier
      · subst hc
        rw [Function.update_self, Option.some.injEq] at hop'
        exact hop' ▸ hnew
      · rw [Function.update_of_ne hc] at hop'
        exact h.pending c op' hop'
    · rw [hreq, List.mem_append, List.mem_singleton] at hop'
      rw [hclerks]
      rcases hop' with hop' | rfl
      · refine (h.requests op' hop').imp_right fun hpend => ?_
        rwa [Function.update_of_ne]
        intro hid
        rw [hid, hidle] at hpend
        cases hpend
      · exact .inr (by rw [Function.update_self])
  · have hnew := h.pending _ _ hpending
    refine ⟨?_, fun c op' hop' => ?_, fun op' hop' => ?_⟩ <;>
      rw [hhist, events_concat, Event.ev, returnedIds_concat_ret]
    · rw [← List.concat_eq_append, List.nodup_concat]
      exact ⟨hnew, h.nodup⟩
    · rw [hclerks] at hop'
      by_cases hc : c = op.identifier
      · subst hc
        rw [Function.update_self] at hop'
        cases hop'
      · rw [Function.update_of_ne hc] at hop'
        rw [List.mem_append, List.mem_singleton, not_or]
        refine ⟨h.pending c op' hop', ?_⟩
        rintro rfl
        exact hc (inv.pending c op' hop').1.symm
    · rw [hreq] at hop'
      rw [List.mem_append, List.mem_singleton, hclerks]
      by_cases hop : op' = op
      · exact .inl (.inr hop)
      · refine (h.requests op' hop').imp .inl fun hpend => ?_
        rwa [Function.update_of_ne]
        intro hid
        rw [hid, hpending, Option.some.injEq] at hpend
        exact hop hpend.symm

end System

/-! ## Positions of the log -/

open Porcupine (contents contents_update keyOf fillDefault kvModel kvStep LinearizableMap Timed
  Logged Parallel)

/-- An executed operation is a step of the model. -/
theorem stepAt_dbExecute (db : DB) (op : Op) (client call ret : ℤ) :
    stepAt keyOf (fillDefault kvModel).stepOf (contents db)
      ⟨client, op.kvInput, call, ⟨(dbExecute db op).2.value⟩, ret⟩ =
        some (contents (dbExecute db op).1) := by
  rcases op with ⟨opType, key, val, seq, identifier⟩
  rw [Porcupine.stepAt_kvModel]
  cases opType with
  | get => cases hdb : db key <;> simp [Op.kvInput, kvStep, dbExecute, contents, hdb]
  | put => simp [Op.kvInput, kvStep, dbExecute, contents_update]
  | append =>
    cases hdb : db key <;>
      simp [Op.kvInput, kvStep, dbExecute, contents_update, contents, hdb]

/-- The database after the first `p` entries. -/
def contentsAt (log : List Entry) (p : ℕ) : Key → Value := contents (replay (log.take p)).db

theorem contentsAt_succ {log : List Entry} {p : ℕ} (hp : p < log.length) :
    contentsAt log (p + 1) =
      if (replay (log.take p)).NeedApply log[p].op then
        contents (dbExecute (replay (log.take p)).db log[p].op).1
      else contentsAt log p := by
  rw [contentsAt, replay_take_succ hp, db_applyEntry]
  split <;> rfl

theorem ExecutedAt.contentsAt_succ {log : List Entry} {op : Op} {p : ℕ} (h : ExecutedAt log op p) :
    contentsAt log (p + 1) = contents (dbExecute (replay (log.take p)).db op).1 := by
  rw [KVRaft.contentsAt_succ h.lt, h.op_eq h.lt, if_pos h.needApply]

/-! ## The check -/

/-- The calls of a run without pending calls are linearizable. -/
theorem System.Inv.linearizableMap {s : System} (inv : s.Inv) (hclosed : s.Closed)
    (hidle : ∀ op ∈ s.requests, (s.clerks op.identifier).pending = none) :
    LinearizableMap (calls s.history) := by
  have hcalls := inv.callHistory hclosed.nodup
  have hexec : ∀ r ∈ returns (events s.history), ∃ p, ExecutedAt s.log r.id p ∧
      r.value = (resultAt s.log r.id p).value := by
    intro r hr
    obtain ⟨n, hn⟩ := mem_returns.1 hr
    obtain ⟨p, hp, hvalue, -⟩ := inv.before_ret _ _ n (ret_mem_events.1 (List.mem_of_getElem? hn))
    exact ⟨p, hp, hvalue⟩
  choose! pos hpos using hexec
  refine (linearizable_map (f := operation s.history) (fun _ _ _ => rfl)
    fun _ _ _ _ => Iff.rfl).1 (hcalls.linearizable_returns (contentsAt s.log) s.log.length pos
      (fun _ => true) ?_ nofun ?_ ?_ ?_ ?_)
  · intro r hr _
    obtain ⟨hp, hvalue⟩ := hpos r hr
    refine ⟨hp.lt, ?_⟩
    rw [hp.contentsAt_succ, operation, hvalue]
    exact stepAt_dbExecute _ _ _ _ _
  · intro r hr r' hr' _ _ heq
    have h := (hpos r hr).1
    rw [heq] at h
    rw [← h.op_eq h.lt, (hpos r' hr').1.op_eq h.lt]
  · intro p hp hno
    rw [KVRaft.contentsAt_succ hp]
    refine if_neg fun hneed => ?_
    have hexec : ExecutedAt s.log s.log[p].op p := ⟨⟨_, List.getElem?_eq_getElem hp, rfl⟩, hneed⟩
    have hreq := inv.entry_mem (List.getElem?_eq_getElem hp)
    rcases hclosed.requests _ hreq with hret | hpend
    · obtain ⟨r, hr, hop⟩ := List.mem_map.1 hret
      refine hno r hr rfl ?_
      exact (hpos r hr).1.unique hexec (by rw [hop]) (by rw [hop])
    · rw [hidle _ hreq] at hpend
      cases hpend
  · intro r hr m hm
    obtain ⟨e, he, hop⟩ := (hpos r hr).1.entry
    exact (inv.after_invoke r.id m (call_mem_events.1 hm)).2 _ e he hop
  · intro r hr m hm
    obtain ⟨p, hp, -, hlt⟩ := inv.before_ret _ _ m (ret_mem_events.1 (List.mem_of_getElem? hm))
    rw [(hpos r hr).1.unique hp rfl rfl]
    exact ⟨hlt.le, fun _ => hlt⟩

theorem calls_timed {s : System} (inv : s.Inv) (hclosed : s.Closed) : Timed (calls s.history) := by
  intro op hop
  obtain ⟨r, hr, rfl⟩ := List.mem_map.1 hop
  obtain ⟨m, -, hlt⟩ := (inv.callHistory hclosed.nodup).callIndex_lt hr
  exact Int.ofNat_le.2 hlt.le

/-- **The check of the service passes.** What the tests log of a run without pending calls is
linearizable, and the check of it does not return `Illegal`, in any order in which it runs. -/
theorem kvraft_check_passes {as : List System.Action} {s : System}
    (hrun : run System.step .init as = some s)
    (hidle : ∀ op ∈ s.requests, (s.clerks op.identifier).pending = none)
    {clock : ℤ → ℤ} (hclock : Monotone clock) {operations : List (Operation KvInput KvOutput)}
    (hlog : Logged clock operations (calls s.history)) :
    LinearizableMap operations ∧
    ∀ byTime computeInfo timeout acts (p : Parallel KvInput KvOutput Value) result info,
      run (Parallel.step (fillDefault kvModel) computeInfo timeout)
        (Porcupine.checkOperations byTime kvModel operations) acts = some p →
      p.main = .done result info → result ≠ .illegal := by
  obtain ⟨inv, hclosed⟩ : s.Inv ∧ s.Closed :=
    run_invariant (P := fun s => s.Inv ∧ s.Closed)
      (fun _ _ _ h hs => ⟨System.step_inv h.1 hs, h.2.step h.1 hs⟩) hrun
      ⟨System.inv_init, System.closed_init⟩
  have hlin := inv.linearizableMap hclosed hidle
  exact ⟨hlog.linearizableMap hclock hlin, fun _ _ _ _ _ _ _ hcheck hmain =>
    hlog.not_illegal hclock (calls_timed inv hclosed) hlin hcheck hmain⟩

theorem kvraft_check_passes_retriedRun :
    ∃ s, run System.step .init retriedRun = some s ∧
      calls s.history = [⟨3, ⟨1, [107], [97]⟩, 0, ⟨[]⟩, 1⟩, ⟨4, ⟨0, [107], []⟩, 2, ⟨[97]⟩, 3⟩] ∧
      LinearizableMap (calls s.history) := by
  obtain ⟨s, hs, hidle, hcalls⟩ : ∃ s, run System.step .init retriedRun = some s ∧
      (∀ op ∈ s.requests, (s.clerks op.identifier).pending = none) ∧
      calls s.history = [⟨3, ⟨1, [107], [97]⟩, 0, ⟨[]⟩, 1⟩, ⟨4, ⟨0, [107], []⟩, 2, ⟨[97]⟩, 3⟩] := by
    decide +kernel
  refine ⟨s, hs, hcalls, (kvraft_check_passes hs hidle monotone_id ⟨calls s.history, ?_, .refl _⟩).1⟩
  exact List.forall₂_same.2 fun _ _ => ⟨rfl, rfl, le_rfl, le_rfl⟩

end DistSys.KVRaft
