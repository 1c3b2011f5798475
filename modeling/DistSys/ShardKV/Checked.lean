import DistSys.Lib.CallHistory
import DistSys.Porcupine.OpLog
import DistSys.ShardKV.Clerks

/-!
# The check of the sharded store

`TestUnreliable3_5B` logs the calls of the clerks while groups join and leave, and checks that they
are linearizable. For a run in which every call has returned, and in which an unassigned shard goes
back to the group that held it last, the check does not fail (`shardkv_check_passes`). As in
`Clerks`, the reply that a clerk takes from a channel is that of its own entry; `Notify.reply_own`
says when this is so.

The log that orders the operations is the list of what all groups have executed. A `Put` or `Append`
has its one place in it. A `Get` may be executed several times, by several groups; the operation
stands at the execution whose reply its clerk took.
-/

namespace DistSys.ShardKV

open ShardCtrler (MemoryConfigStateMachine)
open Porcupine (KvInput KvOutput Operation contents contents_update keyOf fillDefault kvModel kvStep
  LinearizableMap Timed Logged Parallel)

/-! ## The calls of a run -/

/-- What the test logs of the command. -/
def CommandArgs.kvInput (args : CommandArgs) : KvInput :=
  match args.op with
  | .get => ⟨0, args.key, []⟩
  | .put => ⟨1, args.key, args.value⟩
  | .append => ⟨2, args.key, args.value⟩

/-- What the test logs of the result. Only `Get` has one. -/
def CommandArgs.kvOutput (args : CommandArgs) (value : Value) : KvOutput :=
  match args.op with
  | .get => ⟨value⟩
  | .put | .append => ⟨[]⟩

/-- The clerks and the store, and the calls and returns so far. A call is named by the command. -/
structure Traced where
  ck : Clerks
  history : List (CallEv CommandArgs Value)

namespace Traced

def init : Traced := ⟨.init, []⟩

/-- What the groups have executed. -/
abbrev executed (t : Traced) : List Executed := t.ck.store.groups.executed

/-- The calls and returns of an action. -/
def observed (ck : Clerks) : Clerks.Action → List (CallEv CommandArgs Value)
  | .start client op key value =>
    [.call ⟨key, value, op, client, ck.commandId client⟩ ck.store.groups.executed.length]
  | .store _ => []
  | .applied client g k =>
    ((ck.pending client).map fun args =>
      CallEv.ret args ((ck.store.groups.replica g k).applyOperation args).2.value
        ck.store.groups.executed.length).toList
  | .answered client g k =>
    ((ck.pending client).bind fun args => ((ck.store.groups.replica g k).command args).map fun reply =>
      CallEv.ret args reply.value ck.store.groups.executed.length).toList

def step (cf : MemoryConfigStateMachine) (t : Traced) (a : Clerks.Action) : Option Traced :=
  (t.ck.step cf a).map fun ck => ⟨ck, t.history ++ observed t.ck a⟩

/-- The call that returned; its times are places in the history. -/
def operation (t : Traced) (r : Return CommandArgs Value) : Operation KvInput KvOutput where
  clientId := r.id.clientId
  input := r.id.kvInput
  call := callIndex t.history r.id
  output := r.id.kvOutput r.value
  ret := r.index

/-- The calls that have returned. -/
def calls (t : Traced) : List (Operation KvInput KvOutput) := (returns t.history).map t.operation

end Traced

variable {cf : MemoryConfigStateMachine} {executed : List Executed}

/-! ## Replies and executions -/

/-- A reply with which a clerk of a `Get` is done comes from an execution. -/
theorem executes_of_done {kv : ShardKV} {args : CommandArgs} (hop : args.op = .get)
    (hdone : Clerks.Done (kv.applyOperation args).2) : kv.Executes args := by
  refine ⟨?_, fun h => h.1 hop⟩
  by_contra hserve
  rw [applyOperation, if_pos hserve] at hdone
  rcases hdone with h | h <;> cases h

/-- An entry that the state it is applied to executes is among the executed operations. -/
theorem mem_executed {st : Store} {as : List Store.Action}
    (hrun : run (Store.step cf) Store.init as = some st) {g : Gid} {k : ℕ} {args : CommandArgs}
    (hk : (st.groups.logs g)[k]? = some (.operation args))
    (hex : (st.groups.replica g k).Executes args) :
    ⟨g, args, ((st.groups.replica g k).applyOperation args).2⟩ ∈ st.groups.executed := by
  refine Store.groups_induction (P := fun G => ∀ g k args, (G.logs g)[k]? = some (.operation args) →
    (G.replica g k).Executes args →
      ⟨g, args, ((G.replica g k).applyOperation args).2⟩ ∈ G.executed) ?_ ?_ hrun g k args hk hex
  · intro g k args hk
    simp [Groups.init] at hk
  · intro G g' command ih ho g k args hk hex
    by_cases hg : g = g'
    · subst hg
      simp only [Groups.commit, Function.update_self] at hk
      rcases getElem?_concat_cases hk with hk | ⟨rfl, rfl⟩
      · have hlt := (List.getElem?_eq_some_iff.1 hk).1
        rw [Groups.replica_commit_of_le hlt.le] at hex ⊢
        exact List.mem_append_left _ (ih g k args hk hex)
      · -- the new entry, applied to the state of the whole log
        rw [Groups.replica_commit_of_le le_rfl, Groups.replica_of_length_le le_rfl] at hex ⊢
        refine List.mem_append_right _ ?_
        rw [execution_of_executes hex]
        exact List.mem_singleton_self _
    · simp only [Groups.commit, Function.update_of_ne hg] at hk
      rw [Groups.replica_commit_of_ne hg] at hex ⊢
      exact List.mem_append_left _ (ih g k args hk hex)

/-! ## What one step can do -/

namespace Traced

variable {t t' : Traced}

/-- The command has been executed, and if it is a `Get` with this value. -/
def Answers (executed : List Executed) (args : CommandArgs) (value : Value) (n : ℕ) : Prop :=
  ∃ p < n, ∃ e, executed[p]? = some e ∧ e.args = args ∧ (args.op = .get → e.reply.value = value)

theorem Answers.append {args : CommandArgs} {value : Value} {n : ℕ}
    (h : Answers executed args value n) (new : List Executed) :
    Answers (executed ++ new) args value n := by
  obtain ⟨p, hp, e, he, hrest⟩ := h
  refine ⟨p, hp, e, ?_, hrest⟩
  rw [List.getElem?_append_left (List.getElem?_eq_some_iff.1 he).1, he]

theorem answers_of_mem {e : Executed} (he : e ∈ executed) {value : Value}
    (hvalue : e.args.op = .get → e.reply.value = value) :
    Answers executed e.args value executed.length := by
  obtain ⟨p, hp, heq⟩ := List.mem_iff_getElem.1 he
  exact ⟨p, hp, e, by rw [List.getElem?_eq_getElem hp, heq], rfl, hvalue⟩

/-- The store under the clerks has made a run, and the clerks have their invariant. -/
def Reached (cf : MemoryConfigStateMachine) (ck : Clerks) : Prop :=
  (∃ as, run (Store.step cf) Store.init as = some ck.store) ∧ ck.Inv

/-- A command that its clerk leaves behind has been executed. -/
theorem answers_moveOn {ck : Clerks} {client : ℤ} {args : CommandArgs} {value : Value} (h : ck.Inv)
    (hp : ck.pending client = some args) (h' : (ck.moveOn client).Inv)
    (hget : args.op = .get → Answers ck.store.groups.executed args value
      ck.store.groups.executed.length) :
    Answers ck.store.groups.executed args value ck.store.groups.executed.length := by
  by_cases hop : args.op = .get
  · exact hget hop
  · obtain ⟨hmem, rfl, hid⟩ := h.pending hp
    have hlt : args.commandId < (ck.moveOn args.clientId).commandId args.clientId := by
      simp only [Clerks.moveOn, Function.update_self]
      omega
    obtain ⟨e, he, rfl⟩ := h'.done hmem hop hlt
    exact answers_of_mem he fun h => absurd h hop

/-- The cases of a step. -/
theorem step_cases (hret : Returns cf) (hck : Reached cf t.ck) {a : Clerks.Action}
    (h : t.step cf a = some t') :
    Reached cf t'.ck ∧
    ((∃ args, t.ck.pending args.clientId = none ∧ args.commandId = t.ck.commandId args.clientId ∧
      t' = ⟨{ t.ck with
        pending := Function.update t.ck.pending args.clientId (some args)
        issued := t.ck.issued ++ [args] }, t.history ++ [.call args t.executed.length]⟩) ∨
    (∃ st new, st.groups.executed = t.executed ++ new ∧
      t' = ⟨{ t.ck with store := st }, t.history⟩) ∨
    ∃ client args value, t.ck.pending client = some args ∧
      Answers t.executed args value t.executed.length ∧
      t' = ⟨t.ck.moveOn client, t.history ++ [.ret args value t.executed.length]⟩) := by
  obtain ⟨ck', hstep, rfl⟩ := Option.map_eq_some_iff.1 h
  have hck' : Reached cf ck' := Clerks.step_inv hret hck hstep
  obtain ⟨⟨as, hrun⟩, hinv⟩ := hck
  refine ⟨hck', ?_⟩
  cases a with
  | start client op key value =>
    simp only [Clerks.step] at hstep
    split at hstep
    · rename_i hidle
      cases hstep
      exact .inl ⟨⟨key, value, op, client, t.ck.commandId client⟩, hidle, rfl, rfl⟩
    · cases hstep
  | store a =>
    simp only [Clerks.step] at hstep
    split at hstep
    · obtain ⟨st, hst, rfl⟩ := Option.map_eq_some_iff.1 hstep
      obtain ⟨-, hg | ⟨g, command, -, hg, -⟩⟩ := Store.step_cases (Store.sound_of_run hrun) hst
      · refine .inr (.inl ⟨st, [], ?_, by rw [observed, List.append_nil]⟩)
        rw [hg, List.append_nil]
      · refine .inr (.inl ⟨st, Groups.execution g (t.ck.store.groups.group g) command, ?_,
          by rw [observed, List.append_nil]⟩)
        rw [hg]
        rfl
    · cases hstep
  | applied client g k =>
    simp only [Clerks.step] at hstep
    split at hstep
    · rename_i args args' hp hentry
      split at hstep
      · rename_i hdone
        obtain ⟨rfl, hdone⟩ := hdone
        cases hstep
        refine .inr (.inr ⟨client, args', _, hp, answers_moveOn hinv hp hck'.2 fun hop => ?_, by
          rw [observed, hp, Option.map_some, Option.toList_some]⟩)
        exact answers_of_mem (mem_executed hrun hentry (executes_of_done hop hdone)) fun _ => rfl
      · cases hstep
    · cases hstep
  | answered client g k =>
    obtain ⟨args, hp, hstep⟩ := Option.bind_eq_some_iff.1 hstep
    split at hstep
    · rename_i hdone
      cases hstep
      rw [Option.any_eq_true] at hdone
      obtain ⟨reply, hreply, hdone⟩ := hdone
      refine .inr (.inr ⟨client, args, reply.value, hp, answers_moveOn hinv hp hck'.2 fun hop => ?_, by
        simp [observed, hp, hreply]⟩)
      -- a replica does not answer a `Get` without its log, except to refuse it
      rw [ShardKV.command, if_neg fun h => h.1 hop] at hreply
      split at hreply
      · cases hreply
        simp [Clerks.Done] at hdone
      · cases hreply
    · cases hstep

/-! ## The invariant -/

structure Ok (cf : MemoryConfigStateMachine) (t : Traced) : Prop where
  reached : Reached cf t.ck
  history : CallHistory t.history
  stamp_le : ∀ ev ∈ t.history, ev.stamp ≤ t.executed.length
  called : ∀ args ∈ t.ck.issued, ∃ m, .call args m ∈ t.history
  /-- No command is executed before the call. -/
  after : ∀ args m, .call args m ∈ t.history → args ∈ t.ck.issued ∧
    ∀ p e, t.executed[p]? = some e → e.args = args → m ≤ p
  answers : ∀ args value n, .ret args value n ∈ t.history → Answers t.executed args value n
  pending : ∀ c args, t.ck.pending c = some args → args ∉ returnedIds t.history
  settled : ∀ args ∈ t.ck.issued,
    args ∈ returnedIds t.history ∨ t.ck.pending args.clientId = some args

theorem ok_init (cf : MemoryConfigStateMachine) : init.Ok cf where
  reached := ⟨⟨[], rfl⟩, Clerks.inv_init⟩
  history := .nil
  stamp_le := by simp [init]
  called := by simp [init, Clerks.init]
  after := by simp [init]
  answers := by simp [init]
  pending := nofun
  settled := by simp [init, Clerks.init]

namespace Ok

theorem issued (h : t.Ok cf) {args : CommandArgs} (hret : args ∈ returnedIds t.history) :
    args ∈ t.ck.issued := by
  obtain ⟨value, n, hmem⟩ := mem_returnedIds.1 hret
  obtain ⟨m, hm⟩ := h.history.call_of_ret hmem
  exact (h.after args m hm).1

/-- A new command has not been issued before. -/
theorem not_issued (h : t.Ok cf) {args : CommandArgs} (hidle : t.ck.pending args.clientId = none)
    (hid : args.commandId = t.ck.commandId args.clientId) : args ∉ t.ck.issued := by
  intro hmem
  rcases h.reached.2.issued hmem with hlt | hp
  · exact absurd hid hlt.ne
  · rw [hidle] at hp
    cases hp

theorem start (h : t.Ok cf) {args : CommandArgs} (hidle : t.ck.pending args.clientId = none)
    (hid : args.commandId = t.ck.commandId args.clientId) {ck : Clerks}
    (hck : ck = { t.ck with
      pending := Function.update t.ck.pending args.clientId (some args)
      issued := t.ck.issued ++ [args] }) (hreached : Reached cf ck) :
    (⟨ck, t.history ++ [.call args t.executed.length]⟩ : Traced).Ok cf := by
  have hnew := h.not_issued hidle hid
  subst hck
  refine ⟨hreached, h.history.concat_call _ h.stamp_le, ?_, ?_, ?_, ?_, ?_, ?_⟩
  · intro ev hev
    rcases List.mem_append.1 hev with hev | hev
    · exact h.stamp_le ev hev
    · rw [List.mem_singleton.1 hev]
      exact le_rfl
  · intro args' hargs'
    rcases List.mem_append.1 hargs' with hargs' | hargs'
    · obtain ⟨m, hm⟩ := h.called args' hargs'
      exact ⟨m, List.mem_append_left _ hm⟩
    · rw [List.mem_singleton.1 hargs']
      exact ⟨t.executed.length, by simp⟩
  · intro args' m hm
    rcases List.mem_append.1 hm with hm | hm
    · obtain ⟨hissued, hafter⟩ := h.after args' m hm
      exact ⟨List.mem_append_left _ hissued, hafter⟩
    · rw [List.mem_singleton] at hm
      cases hm
      refine ⟨List.mem_append_right _ (List.mem_singleton_self _), fun p e he heq => ?_⟩
      exact absurd (heq ▸ h.reached.2.sent (List.mem_of_getElem? he)) hnew
  · intro args' value n hmem
    exact h.answers args' value n (by simpa using hmem)
  · intro c args' hp
    rw [returnedIds_concat_call]
    change Function.update t.ck.pending args.clientId (some args) c = some args' at hp
    by_cases hc : c = args.clientId
    · subst hc
      rw [Function.update_self, Option.some.injEq] at hp
      exact fun hret => hnew (hp ▸ h.issued hret)
    · rw [Function.update_of_ne hc] at hp
      exact h.pending c args' hp
  · intro args' hargs'
    rw [returnedIds_concat_call]
    change _ ∨ Function.update t.ck.pending args.clientId (some args) args'.clientId = some args'
    rcases List.mem_append.1 hargs' with hargs' | hargs'
    · refine (h.settled args' hargs').imp_right fun hp => ?_
      rwa [Function.update_of_ne]
      intro hc
      rw [hc, hidle] at hp
      cases hp
    · rw [List.mem_singleton.1 hargs']
      exact .inr (Function.update_self ..)

/-- The groups execute more. -/
theorem store (h : t.Ok cf) {st : Store} {new : List Executed}
    (hst : st.groups.executed = t.executed ++ new)
    (hreached : Reached cf { t.ck with store := st }) :
    (⟨{ t.ck with store := st }, t.history⟩ : Traced).Ok cf := by
  refine ⟨hreached, h.history, ?_, h.called, ?_, ?_, h.pending, h.settled⟩
  · intro ev hev
    have := h.stamp_le ev hev
    change ev.stamp ≤ st.groups.executed.length
    rw [hst, List.length_append]
    omega
  · intro args m hm
    obtain ⟨hissued, hafter⟩ := h.after args m hm
    refine ⟨hissued, fun p e he heq => ?_⟩
    change st.groups.executed[p]? = some e at he
    rw [hst, List.getElem?_append] at he
    split at he
    · exact hafter p e he heq
    · exact (h.stamp_le _ hm).trans (by omega)
  · intro args value n hmem
    change Answers st.groups.executed args value n
    rw [hst]
    exact (h.answers args value n hmem).append new

/-- A clerk returns. -/
theorem moveOn (h : t.Ok cf) {client : ℤ} {args : CommandArgs} {value : Value}
    (hp : t.ck.pending client = some args)
    (hans : Answers t.executed args value t.executed.length)
    (hreached : Reached cf (t.ck.moveOn client)) :
    (⟨t.ck.moveOn client, t.history ++ [.ret args value t.executed.length]⟩ : Traced).Ok cf := by
  obtain ⟨hmem, rfl, -⟩ := h.reached.2.pending hp
  refine ⟨hreached, h.history.concat_ret value h.stamp_le (h.called args hmem) (h.pending _ args hp),
    ?_, ?_, ?_, ?_, ?_, ?_⟩
  · intro ev hev
    rcases List.mem_append.1 hev with hev | hev
    · exact h.stamp_le ev hev
    · rw [List.mem_singleton.1 hev]
      exact le_rfl
  · intro args' hargs'
    obtain ⟨m, hm⟩ := h.called args' hargs'
    exact ⟨m, List.mem_append_left _ hm⟩
  · exact fun args' m hm => h.after args' m (by simpa using hm)
  · intro args' value' n hmem'
    rcases List.mem_append.1 hmem' with hmem' | hmem'
    · exact h.answers args' value' n hmem'
    · rw [List.mem_singleton] at hmem'
      cases hmem'
      exact hans
  · intro c args' hp'
    change Function.update t.ck.pending args.clientId none c = some args' at hp'
    by_cases hc : c = args.clientId
    · subst hc
      rw [Function.update_self] at hp'
      cases hp'
    · rw [Function.update_of_ne hc] at hp'
      rw [returnedIds_concat_ret, List.mem_append, List.mem_singleton, not_or]
      refine ⟨h.pending c args' hp', ?_⟩
      rintro rfl
      exact hc (h.reached.2.pending hp').2.1.symm
  · intro args' hargs'
    rw [returnedIds_concat_ret, List.mem_append, List.mem_singleton]
    by_cases heq : args' = args
    · exact .inl (.inr heq)
    · refine (h.settled args' hargs').imp .inl fun hp' => ?_
      change Function.update t.ck.pending args.clientId none args'.clientId = some args'
      rwa [Function.update_of_ne]
      intro hc
      rw [hc, hp, Option.some.injEq] at hp'
      exact heq hp'.symm

theorem step (hret : Returns cf) {a : Clerks.Action} (h : t.Ok cf) (hstep : t.step cf a = some t') :
    t'.Ok cf := by
  obtain ⟨hreached, hcases⟩ := step_cases hret h.reached hstep
  rcases hcases with ⟨args, hidle, hid, rfl⟩ | ⟨st, new, hst, rfl⟩ |
    ⟨client, args, value, hp, hans, rfl⟩
  · exact h.start hidle hid rfl hreached
  · exact h.store hst hreached
  · exact h.moveOn hp hans hreached

end Ok

/-! ## Positions -/

/-- The map after the first `p` executed operations. -/
def contentsAt (executed : List Executed) (p : ℕ) : Key → Value :=
  contents (valueOf (executed.take p))

theorem contentsAt_succ {p : ℕ} {e : Executed} (he : executed[p]? = some e) :
    contentsAt executed (p + 1) =
      contents (Function.update (valueOf (executed.take p)) e.args.key
        (e.args.effect (valueOf (executed.take p) e.args.key))) := by
  obtain ⟨hlt, rfl⟩ := List.getElem?_eq_some_iff.1 he
  rw [contentsAt, List.take_succ_eq_append_getElem hlt]
  congr 1
  funext key
  rw [valueOf_concat]
  split
  · rename_i hkey
    subst hkey
    rw [Function.update_self]
  · rename_i hkey
    rw [Function.update_of_ne (Ne.symm hkey)]

/-- An executed write is a step of the model. -/
theorem stepAt_write {args : CommandArgs} (hop : args.op ≠ .get) (map : Key → Option Value)
    (value : Value) (client call ret : ℤ) :
    stepAt keyOf (fillDefault kvModel).stepOf (contents map)
      ⟨client, args.kvInput, call, args.kvOutput value, ret⟩ =
        some (contents (Function.update map args.key (args.effect (map args.key)))) := by
  rw [Porcupine.stepAt_kvModel]
  rcases args with ⟨key, v, op, clientId, commandId⟩
  cases op with
  | get => exact absurd rfl hop
  | put => simp [CommandArgs.kvInput, kvStep, CommandArgs.effect, contents_update]
  | append => simp [CommandArgs.kvInput, kvStep, CommandArgs.effect, contents_update, contents]

theorem stepAt_get {args : CommandArgs} (hop : args.op = .get) (map : Key → Option Value)
    (client call ret : ℤ) :
    stepAt keyOf (fillDefault kvModel).stepOf (contents map)
      ⟨client, args.kvInput, call, args.kvOutput (contents map args.key), ret⟩ =
        some (contents map) := by
  rw [Porcupine.stepAt_kvModel]
  simp [CommandArgs.kvInput, CommandArgs.kvOutput, hop, kvStep]

theorem readReply_value (o : Option Value) : (readReply o).value = o.getD [] := by
  cases o <;> rfl

def isWrite (r : Return CommandArgs Value) : Bool := r.id.op ≠ .get

namespace Ok

/-- The position of a call that has returned. -/
theorem exists_position (h : t.Ok cf) (hreads : ReadsLast t.executed) {r : Return CommandArgs Value}
    (hr : r ∈ returns t.history) :
    ∃ p, (∀ m, .call r.id m ∈ t.history → m ≤ p) ∧
      (∀ n, t.history[r.index]? = some (.ret r.id r.value n) →
        p ≤ n ∧ (isWrite r = true → p < n)) ∧
      (∃ e, t.executed[p]? = some e ∧ e.args = r.id) ∧
      (isWrite r = false → p ≤ t.executed.length ∧
        stepAt keyOf (fillDefault kvModel).stepOf (contentsAt t.executed p) (t.operation r) =
          some (contentsAt t.executed p)) ∧
      (isWrite r = true →
        stepAt keyOf (fillDefault kvModel).stepOf (contentsAt t.executed p) (t.operation r) =
          some (contentsAt t.executed (p + 1))) := by
  obtain ⟨n, hn⟩ := mem_returns.1 hr
  rcases r with ⟨args, value, index⟩
  obtain ⟨p, hp, e, he, rfl, hvalue⟩ := h.answers args value n (List.mem_of_getElem? hn)
  refine ⟨p, fun m hm => (h.after _ m hm).2 p e he rfl, fun n' hn' => ?_, ⟨e, he, rfl⟩,
    fun hw => ⟨(List.getElem?_eq_some_iff.1 he).1.le, ?_⟩, fun hw => ?_⟩
  · rw [hn] at hn'
    cases hn'
    exact ⟨hp.le, fun _ => hp⟩
  · have hop : e.args.op = .get := by simpa [isWrite] using hw
    have hread : value = contents (valueOf (t.executed.take p)) e.args.key := by
      rw [← hvalue hop, hreads p e he hop, readReply_value, contents]
    subst hread
    exact stepAt_get hop _ _ _ _
  · have hop : e.args.op ≠ .get := by simpa [isWrite] using hw
    rw [contentsAt_succ he]
    exact stepAt_write hop _ _ _ _ _

/-- A write is executed once. -/
theorem executed_once (h : t.Ok cf) {p q : ℕ} {e e' : Executed} (hp : t.executed[p]? = some e)
    (hq : t.executed[q]? = some e') (heq : e.args = e'.args) (hop : e.args.op ≠ .get) : p = q :=
  position_unique (h.reached.2.once e.args.clientId e.args.commandId) hp hq
    (decide_eq_true ⟨hop, rfl, rfl⟩) (decide_eq_true (heq ▸ ⟨hop, rfl, rfl⟩))

/-- The calls of a run without pending calls are linearizable. -/
theorem linearizableMap (h : t.Ok cf) (hreads : ReadsLast t.executed)
    (hidle : ∀ args ∈ t.ck.issued, t.ck.pending args.clientId = none) : LinearizableMap t.calls := by
  choose! pos hcall hret hexec hget hput using fun r hr => h.exists_position hreads (r := r) hr
  refine (linearizable_map (f := t.operation) (fun _ _ _ => rfl) fun _ _ _ _ => Iff.rfl).1
    (h.history.linearizable_returns (contentsAt t.executed) t.executed.length pos isWrite
      ?_ hget ?_ ?_ hcall hret)
  · intro r hr hw
    obtain ⟨e, he, -⟩ := hexec r hr
    exact ⟨(List.getElem?_eq_some_iff.1 he).1, hput r hr hw⟩
  · intro r hr r' hr' hw hw' heq
    obtain ⟨e, he, hid⟩ := hexec r hr
    obtain ⟨e', he', hid'⟩ := hexec r' hr'
    rw [heq, he', Option.some.injEq] at he
    rw [← hid, ← hid', he]
  · intro p hp hno
    have he := List.getElem?_eq_getElem hp
    by_cases hop : (t.executed[p]).args.op = .get
    · -- a `Get` changes nothing
      rw [contentsAt_succ he, CommandArgs.effect, hop, Function.update_eq_self, contentsAt]
    · -- every executed write belongs to a call that has returned
      have hissued := h.reached.2.sent (List.getElem_mem hp)
      have hret := (h.settled _ hissued).resolve_right (by rw [hidle _ hissued]; nofun)
      obtain ⟨r, hr, hid⟩ := List.mem_map.1 hret
      have hw : isWrite r = true := by simpa [isWrite, hid] using hop
      obtain ⟨e, he', hi⟩ := hexec r hr
      exact absurd (h.executed_once he he' (by rw [hi, hid]) hop).symm (hno r hr hw)

theorem calls_timed (h : t.Ok cf) : Timed t.calls := by
  intro op hop
  obtain ⟨r, hr, rfl⟩ := List.mem_map.1 hop
  obtain ⟨m, -, hlt⟩ := h.history.callIndex_lt hr
  exact Int.ofNat_le.2 hlt.le

end Ok

end Traced

/-- **The check of the sharded store passes.** What the test logs of a run without pending calls is
linearizable, however the shards have moved, and the check of it does not return `Illegal`, in any
order in which it runs. -/
theorem shardkv_check_passes (hcf : Returns cf) {as : List Clerks.Action} {t : Traced}
    (hrun : run (Traced.step cf) .init as = some t)
    (hidle : ∀ args ∈ t.ck.issued, t.ck.pending args.clientId = none)
    {clock : ℤ → ℤ} (hclock : Monotone clock) {operations : List (Operation KvInput KvOutput)}
    (hlog : Logged clock operations t.calls) :
    LinearizableMap operations ∧
    ∀ byTime computeInfo timeout acts (p : Parallel KvInput KvOutput Value) result info,
      run (Parallel.step (fillDefault kvModel) computeInfo timeout)
        (Porcupine.checkOperations byTime kvModel operations) acts = some p →
      p.main = .done result info → result ≠ .illegal := by
  have h : t.Ok cf := run_invariant (fun _ _ _ h hs => h.step hcf hs) hrun (Traced.ok_init cf)
  obtain ⟨as, hstore⟩ := h.reached.1
  have hlin := h.linearizableMap (Contents.of_run hcf hstore).reads hidle
  exact ⟨hlog.linearizableMap hclock hlin, fun _ _ _ _ _ _ _ hcheck hmain =>
    hlog.not_illegal hclock h.calls_timed hlin hcheck hmain⟩

/-- A write is executed at group 1 and its shard moves to group 2, which answers the write from the
table and the read from its log. -/
def movedRun : List Clerks.Action :=
  [.start 1 .put [0] [7], .start 2 .get [0] []] ++ handoffRun.map .store ++
    [.answered 1 group2 100, .store (.operation group2 ⟨[0], [], .get, 2, 0⟩), .applied 2 group2 4]

theorem shardkv_check_passes_movedRun :
    ∃ cf t, configsOf handoffOps = some cf ∧ run (Traced.step cf) .init movedRun = some t ∧
      t.calls = [⟨1, ⟨1, [0], [7]⟩, 0, ⟨[]⟩, 2⟩, ⟨2, ⟨0, [0], []⟩, 1, ⟨[7]⟩, 3⟩] ∧
      LinearizableMap t.calls := by
  have h : ∃ cf, configsOf handoffOps = some cf ∧ Returns cf ∧
      ∃ t, run (Traced.step cf) .init movedRun = some t ∧
        (∀ args ∈ t.ck.issued, t.ck.pending args.clientId = none) ∧
        t.calls = [⟨1, ⟨1, [0], [7]⟩, 0, ⟨[]⟩, 2⟩, ⟨2, ⟨0, [0], []⟩, 1, ⟨[7]⟩, 3⟩] := by
    decide +kernel
  obtain ⟨cf, hcf, hret, t, ht, hidle, hcalls⟩ := h
  refine ⟨cf, t, hcf, ht, hcalls,
    (shardkv_check_passes hret ht hidle monotone_id ⟨t.calls, ?_, .refl _⟩).1⟩
  exact List.forall₂_same.2 fun _ _ => ⟨rfl, rfl, le_rfl, le_rfl⟩

end DistSys.ShardKV
