import DistSys.ShardKV.Checked
import DistSys.ShardKV.Deployment

/-!
# The clerks of the sharded store on raft

The clerks of `shardkv/client.go` on the groups of `Deployment`. A clerk is done with the answer of
a server that has its command in the table, or with a reply that some server made when it applied
the command. As in `Clerks`, the reply that a clerk takes is one to its own command;
`Notify.reply_own` says when the channels of the servers see to that.

As long as raft overwrites no request that is still to be encoded, a step of the whole is a run of
the clerks on the store (`Matches.step`), so what the clerks see is linearizable, whatever else the
raft servers of the groups and the network between them do and however the shards move.

Main result: `shardkv_on_raft`.
-/

namespace DistSys.ShardKV

open ShardCtrler (MemoryConfigStateMachine)
open Porcupine (KvInput KvOutput Operation fillDefault kvModel LinearizableMap Logged Parallel)

/-! ## Clerks and groups -/

structure Deployed (n : ℕ) where
  deployment : Deployment n
  commandId : ℤ → ℤ
  /-- The command that the clerk is executing. -/
  pending : ℤ → Option CommandArgs
  /-- Every command that a clerk has sent. -/
  issued : List CommandArgs
  /-- The replies that the appliers have made, each with its command. -/
  replies : List (CommandArgs × CommandReply)
  /-- The calls and returns so far. -/
  history : List (CallEv CommandArgs Value)

namespace Deployed

variable {n : ℕ}

def init (labgob : Labgob) : Deployed n := ⟨.init labgob, fun _ => 0, fun _ => none, [], [], []⟩

inductive Action (n : ℕ) where
  /-- A clerk starts a command. -/
  | start (client : ℤ) (op : OperationType) (key : Key) (value : Value)
  /-- A step of the groups; operations are those that the clerks have sent. -/
  | deployment (a : Deployment.Action n)
  /-- The clerk gets the `i`-th reply. -/
  | applied (client : ℤ) (i : ℕ)
  /-- The clerk gets the answer of a server that does not pass the command on. -/
  | answered (client : ℤ) (g : Gid) (s : Fin n)

/-- The reply that `applier` makes to the message that it works on. -/
def reply (r : Replica) : List (CommandArgs × CommandReply) :=
  match r.applier with
  | .received message =>
    match message.command with
    | .operation args =>
      if message.commandValid ∧ r.lastApplied < message.commandIndex then
        [(args, (r.kv.applyOperation args).2)]
      else []
    | _ => []
  | _ => []

/-- The replies that are made in a step of the groups. -/
def made (d : Deployment n) : Deployment.Action n → List (CommandArgs × CommandReply)
  | .group g (.apply s _) => reply ((d.groups g).replicas s)
  | _ => []

variable (w : Deployed n)

def Sent : Deployment.Action n → Prop
  | .command _ _ args => args ∈ w.issued
  | _ => True

instance : DecidablePred w.Sent
  | .command _ _ args => inferInstanceAs (Decidable (args ∈ w.issued))
  | .checkEntryInCurrentTermAction _ | .configurationAction _ _ | .migrationAction _ _ _ _
  | .gcAction _ _ _ _ | .getShardsData _ _ | .deleteShardsData _ _ | .deleteShardsReply _
  | .start _ _ | .group _ _ => inferInstanceAs (Decidable True)

/-- The clerk returns and takes the next number. -/
def moveOn (client : ℤ) (args : CommandArgs) (value : Value) : Deployed n :=
  { w with
    commandId := Function.update w.commandId client (w.commandId client + 1)
    pending := Function.update w.pending client none
    history := w.history ++ [.ret args value 0] }

def step (cf : MemoryConfigStateMachine) (labgob : Labgob) (w : Deployed n) :
    Action n → Option (Deployed n)
  | .start client op key value =>
    if w.pending client = none then
      let args : CommandArgs := ⟨key, value, op, client, w.commandId client⟩
      some { w with
        pending := Function.update w.pending client (some args)
        issued := w.issued ++ [args]
        history := w.history ++ [.call args 0] }
    else none
  | .deployment a =>
    if w.Sent a then
      (w.deployment.step cf labgob a).map fun d =>
        { w with
          deployment := d
          replies := w.replies ++ made w.deployment a }
    else none
  | .applied client i =>
    (w.pending client).bind fun args => w.replies[i]?.bind fun p =>
      if p.1 = args ∧ Clerks.Done p.2 then some (w.moveOn client args p.2.value) else none
  | .answered client g s =>
    (w.pending client).bind fun args => ((w.deployment.kv g s).command args).bind fun reply =>
      if Clerks.Done reply then some (w.moveOn client args reply.value) else none

/-- Raft overwrites no request that is still to be encoded. -/
def NoOverwrite (w : Deployed n) : Action n → Prop
  | .deployment a => w.deployment.NoOverwrite a
  | .start _ _ _ _ | .applied _ _ | .answered _ _ _ => True

instance (w : Deployed n) : DecidablePred w.NoOverwrite
  | .deployment a => inferInstanceAs (Decidable (w.deployment.NoOverwrite a))
  | .start _ _ _ _ | .applied _ _ | .answered _ _ _ => isTrue trivial

def Action.needsSnapshot : Action n → Bool
  | .deployment a => a.needsSnapshot
  | _ => false

/-- The calls that have returned. -/
def calls : List (Operation KvInput KvOutput) := (⟨.init, w.history⟩ : Traced).calls

end Deployed

/-! ## Logs only grow -/

theorem Store.logs_step {cf : MemoryConfigStateMachine} {st st' : Store} {a : Store.Action}
    (h : Store.step cf st a = some st') (g : Gid) : st.groups.logs g <+: st'.groups.logs g := by
  have hcommit : ∀ g' command, st.groups.logs g <+: (st.commit g' command).groups.logs g := by
    intro g' command
    simp only [Store.commit, Groups.commit]
    by_cases hg : g = g'
    · subst hg
      rw [Function.update_self]
      exact List.prefix_append _ _
    · rw [Function.update_of_ne hg]
  cases a with
  | operation g' args =>
    cases h
    exact hcommit _ _
  | emptyShards g' =>
    cases h
    exact hcommit _ _
  | getShardsData i k =>
    obtain ⟨t, -, h⟩ := Option.bind_eq_some_iff.1 h
    simp only at h
    split at h <;> cases h
    exact List.prefix_rfl
  | deleteShardsData i k =>
    obtain ⟨t, -, h⟩ := Option.bind_eq_some_iff.1 h
    obtain ⟨command, -, rfl⟩ := Option.map_eq_some_iff.1 h
    exact List.prefix_rfl
  | commit i =>
    obtain ⟨p, -, rfl⟩ := Option.map_eq_some_iff.1 h
    exact hcommit _ _
  | configurationAction g' k | migrationAction g' dst k shardIDs | gcAction g' dst k shardIDs
  | deleteShardsReply i =>
    obtain ⟨x, -, rfl⟩ := Option.map_eq_some_iff.1 h
    exact List.prefix_rfl

theorem Store.logs_run {cf : MemoryConfigStateMachine} {st st' : Store} {bs : List Store.Action}
    (h : run (Store.step cf) st bs = some st') (g : Gid) :
    st.groups.logs g <+: st'.groups.logs g :=
  run_invariant (P := fun st' => st.groups.logs g <+: st'.groups.logs g)
    (fun _ _ _ hgrows hstep => hgrows.trans (Store.logs_step hstep g)) h List.prefix_rfl

/-- The entry of the command is in a log, and the reply is what it gives there. -/
def RepliedIn (G : Groups) (p : CommandArgs × CommandReply) : Prop :=
  ∃ g k, (G.logs g)[k]? = some (.operation p.1) ∧ p.2 = ((G.replica g k).applyOperation p.1).2

theorem RepliedIn.mono {G G' : Groups} {p : CommandArgs × CommandReply} (h : RepliedIn G p)
    (hlogs : ∀ g, G.logs g <+: G'.logs g) : RepliedIn G' p := by
  obtain ⟨g, k, hk, hreply⟩ := h
  obtain ⟨rest, hrest⟩ := hlogs g
  have hlt := (List.getElem?_eq_some_iff.1 hk).1
  refine ⟨g, k, ?_, ?_⟩
  · rw [← hrest, List.getElem?_append_left hlt, hk]
  · rw [hreply, Groups.replica, Groups.replica, ← hrest, List.take_append_of_le_length hlt.le]

/-! ## The clerks on the store -/

/-- `t` is the run of the clerks on the store that `w` stands for. -/
structure Matches {n : ℕ} (w : Deployed n) (t : Traced) : Prop where
  deploys : Deploys (· ∈ w.issued) w.deployment t.ck.store
  commandId : t.ck.commandId = w.commandId
  pending : t.ck.pending = w.pending
  issued : t.ck.issued = w.issued
  replies : ∀ p ∈ w.replies, RepliedIn t.ck.store.groups p
  history : w.history = t.history.map CallEv.unstamped

namespace Matches

variable {n : ℕ} {cf : MemoryConfigStateMachine} {labgob : Labgob} {w w' : Deployed n} {t : Traced}

theorem init (labgob : Labgob) : Matches (.init labgob : Deployed n) .init where
  deploys := .init labgob
  commandId := rfl
  pending := rfl
  issued := rfl
  replies _ hp := absurd hp List.not_mem_nil
  history := rfl

/-- The store moves, and the clerks do not. -/
theorem run_store {bs : List Store.Action} {st : Store}
    (hbs : ∀ b ∈ bs, b.Among (· ∈ t.ck.issued))
    (hrun : run (Store.step cf) t.ck.store bs = some st) :
    run (Traced.step cf) t (bs.map .store) = some ⟨{ t.ck with store := st }, t.history⟩ := by
  induction bs generalizing t with
  | nil =>
    cases hrun
    rfl
  | cons b bs ih =>
    obtain ⟨st₁, hb, hrun⟩ := run_cons_eq_some.1 hrun
    have hsent : t.ck.Sent b := by
      have hamong := hbs b List.mem_cons_self
      cases b <;> exact hamong
    have hone : t.step cf (.store b) = some ⟨{ t.ck with store := st₁ }, t.history⟩ := by
      rw [Traced.step, Clerks.step, if_pos hsent, hb]
      simp [Traced.observed]
    refine run_cons_eq_some.2 ⟨_, hone, ?_⟩
    exact ih (t := ⟨{ t.ck with store := st₁ }, t.history⟩)
      (fun b' hb' => hbs b' (List.mem_cons_of_mem _ hb')) hrun

/-- What an applier replies is what the entry gives in the log of its group. -/
theorem replied (h : Matches w t) {a : Deployment.Action n} {p : CommandArgs × CommandReply}
    (hp : p ∈ Deployed.made w.deployment a) : RepliedIn t.ck.store.groups p := by
  unfold Deployed.made at hp
  split at hp
  · rename_i g s needSnapshot
    obtain ⟨r, hfollows, hlog⟩ := h.deploys.groups g
    have hkv := h.deploys.kv_eq g s
    unfold Deployed.reply at hp
    split at hp
    · rename_i message hmessage
      obtain ⟨e, he, -, rfl⟩ := (hfollows.servers s).received message hmessage
      split at hp
      · rename_i args hargs
        split at hp
        · cases List.mem_singleton.1 hp
          have hcommand : e.2 = .operation args := hargs
          refine ⟨g, _, ?_, congrArg (fun kv => (ShardKV.applyOperation kv args).2) hkv⟩
          rw [hlog, List.getElem?_map, he, Option.map_some, hcommand]
        · cases hp
      · cases hp
    · cases hp
  · cases hp

theorem moveOn (h : Matches w t) {client : ℤ} {args : CommandArgs} {value : Value} {m : ℕ} :
    Matches (w.moveOn client args value)
      ⟨t.ck.moveOn client, t.history ++ [.ret args value m]⟩ where
  deploys := h.deploys
  commandId := by simp only [Clerks.moveOn, Deployed.moveOn, h.commandId]
  pending := by simp only [Clerks.moveOn, Deployed.moveOn, h.pending]
  issued := h.issued
  replies := h.replies
  history := by
    rw [Deployed.moveOn, List.map_append, ← h.history]
    rfl

theorem start (h : Matches w t) {client : ℤ} (hidle : w.pending client = none) (op : OperationType)
    (key : Key) (value : Value) :
    let args : CommandArgs := ⟨key, value, op, client, w.commandId client⟩
    ∃ t', t.step cf (.start client op key value) = some t' ∧
      Matches { w with
        pending := Function.update w.pending client (some args)
        issued := w.issued ++ [args]
        history := w.history ++ [.call args 0] } t' := by
  obtain ⟨d, commandId, pending, issued, replies, history⟩ := w
  obtain ⟨hdeploys, rfl, rfl, rfl, hreplies, rfl⟩ := h
  refine ⟨⟨{ t.ck with
      pending := Function.update t.ck.pending client
        (some ⟨key, value, op, client, t.ck.commandId client⟩)
      issued := t.ck.issued ++ [⟨key, value, op, client, t.ck.commandId client⟩] },
    t.history ++ [.call ⟨key, value, op, client, t.ck.commandId client⟩
      t.ck.store.groups.executed.length]⟩, ?_, ?_⟩
  · rw [Traced.step, Clerks.step, if_pos hidle]
    rfl
  · refine ⟨hdeploys.mono fun _ => List.mem_append_left _, rfl, rfl, rfl, hreplies, ?_⟩
    rw [List.map_append]
    rfl

theorem deployment (h : Matches w t) {a : Deployment.Action n} {d : Deployment n}
    (hno : w.deployment.NoOverwrite a) (hsnap : a.needsSnapshot = false) (hsent : w.Sent a)
    (hd : w.deployment.step cf labgob a = some d) :
    ∃ bs t', run (Traced.step cf) t bs = some t' ∧
      Matches { w with
        deployment := d
        replies := w.replies ++ Deployed.made w.deployment a } t' := by
  have hasked : ∀ g s args, a = .command g s args → args ∈ w.issued := by
    rintro g s args rfl
    exact hsent
  obtain ⟨bs, st, hrun, hbs, hdeploys⟩ := h.deploys.step hno hsnap hasked hd
  refine ⟨bs.map .store, _, run_store (h.issued ▸ hbs) hrun, hdeploys, h.commandId, h.pending,
    h.issued, fun p hp => ?_, h.history⟩
  rcases List.mem_append.1 hp with hp | hp
  · exact (h.replies p hp).mono (Store.logs_run hrun)
  · exact (h.replied hp).mono (Store.logs_run hrun)

theorem applied (h : Matches w t) {client : ℤ} {p : CommandArgs × CommandReply}
    (hpending : w.pending client = some p.1) (hp : p ∈ w.replies) (hdone : Clerks.Done p.2) :
    ∃ a t', t.step cf a = some t' ∧ Matches (w.moveOn client p.1 p.2.value) t' := by
  obtain ⟨g, k, hk, hreply⟩ := h.replies p hp
  rw [← h.pending] at hpending
  refine ⟨.applied client g k, ⟨t.ck.moveOn client,
    t.history ++ [.ret p.1 p.2.value t.ck.store.groups.executed.length]⟩, ?_, h.moveOn⟩
  simp [Traced.step, Clerks.step, Traced.observed, hpending, hk, ← hreply, hdone]

theorem answered (h : Matches w t) {client : ℤ} {args : CommandArgs} {reply : CommandReply}
    (hpending : w.pending client = some args) {g : Gid} {s : Fin n}
    (hreply : (w.deployment.kv g s).command args = some reply) (hdone : Clerks.Done reply) :
    ∃ a t', t.step cf a = some t' ∧ Matches (w.moveOn client args reply.value) t' := by
  rw [h.deploys.kv_eq] at hreply
  rw [← h.pending] at hpending
  refine ⟨.answered client g ((w.deployment.groups g).replicas s).lastApplied, ⟨t.ck.moveOn client,
    t.history ++ [.ret args reply.value t.ck.store.groups.executed.length]⟩, ?_, h.moveOn⟩
  simp [Traced.step, Clerks.step, Traced.observed, hpending, hreply, hdone]

/-- **A step of the clerks and the groups is a run of the clerks on the store.** -/
theorem step (h : Matches w t) {a : Deployed.Action n} (hno : w.NoOverwrite a)
    (hsnap : a.needsSnapshot = false)
    (hstep : w.step cf labgob a = some w') :
    ∃ bs t', run (Traced.step cf) t bs = some t' ∧ Matches w' t' := by
  have hone : (∃ a t', t.step cf a = some t' ∧ Matches w' t') →
      ∃ bs t', run (Traced.step cf) t bs = some t' ∧ Matches w' t' := by
    rintro ⟨a, t', ht', h'⟩
    exact ⟨[a], t', run_cons_eq_some.2 ⟨t', ht', rfl⟩, h'⟩
  cases a with
  | start client op key value =>
    rw [Deployed.step] at hstep
    split at hstep
    · rename_i hidle
      cases hstep
      exact hone ⟨_, h.start hidle op key value⟩
    · cases hstep
  | deployment a =>
    rw [Deployed.step] at hstep
    split at hstep
    · rename_i hsent
      obtain ⟨d, hd, rfl⟩ := Option.map_eq_some_iff.1 hstep
      exact h.deployment hno hsnap hsent hd
    · cases hstep
  | applied client i =>
    obtain ⟨args, hpending, hstep⟩ := Option.bind_eq_some_iff.1 hstep
    obtain ⟨p, hp, hstep⟩ := Option.bind_eq_some_iff.1 hstep
    split at hstep
    · rename_i hdone
      cases hstep
      obtain ⟨rfl, hdone⟩ := hdone
      exact hone (h.applied hpending (List.mem_of_getElem? hp) hdone)
    · cases hstep
  | answered client g s =>
    obtain ⟨args, hpending, hstep⟩ := Option.bind_eq_some_iff.1 hstep
    obtain ⟨reply, hreply, hstep⟩ := Option.bind_eq_some_iff.1 hstep
    split at hstep
    · rename_i hdone
      cases hstep
      exact hone (h.answered hpending hreply hdone)
    · cases hstep

/-- The calls and their places are those of the clerks on the store. -/
theorem calls_eq (h : Matches w t) : w.calls = t.calls := by
  rw [Deployed.calls, Traced.calls, Traced.calls]
  simp only [h.history, returns_unstamped]
  refine List.map_congr_left fun r _ => ?_
  simp only [Traced.operation, callIndex_unstamped]

end Matches

/-- **The sharded store on raft is linearizable.** In every run of the clerks, the groups, their
raft servers and the network in which no snapshot is asked for and no request overwritten and that
leaves no call pending, what the test logs is linearizable, however the shards have moved, and the
check of it does not return `Illegal`. -/
theorem shardkv_on_raft {n : ℕ} {cf : MemoryConfigStateMachine} (hcf : Returns cf) {labgob : Labgob}
    {as : List (Deployed.Action n)} {w : Deployed n}
    (hno : Along (Deployed.step cf labgob) Deployed.NoOverwrite (.init labgob) as)
    (hsnap : ∀ a ∈ as, a.needsSnapshot = false)
    (hrun : run (Deployed.step cf labgob) (.init labgob) as = some w)
    (hidle : ∀ args ∈ w.issued, w.pending args.clientId = none)
    {clock : ℤ → ℤ} (hclock : Monotone clock) {operations : List (Operation KvInput KvOutput)}
    (hlog : Logged clock operations w.calls) :
    LinearizableMap operations ∧
    ∀ byTime computeInfo timeout acts (p : Parallel KvInput KvOutput Value) result info,
      run (Parallel.step (fillDefault kvModel) computeInfo timeout)
        (Porcupine.checkOperations byTime kvModel operations) acts = some p →
      p.main = .done result info → result ≠ .illegal := by
  obtain ⟨t, ht, h⟩ := run_induction (P := fun w => ∃ t : Traced, t.Ok cf ∧ Matches w t)
    (fun w a w' hP hC hstep => by
      obtain ⟨t, ht, h⟩ := hP
      obtain ⟨bs, t', hbs, h'⟩ := h.step hC.1 hC.2 hstep
      exact ⟨t', run_invariant (fun _ _ _ h hs => h.step hcf hs) hbs ht, h'⟩)
    (hno.and (along_of_forall hsnap)) hrun ⟨.init, Traced.ok_init cf, .init labgob⟩
  rw [h.calls_eq] at hlog
  rw [← h.issued, ← h.pending] at hidle
  obtain ⟨bs, hstore⟩ := ht.reached.1
  have hlin := ht.linearizableMap (Contents.of_run hcf hstore).reads hidle
  exact ⟨hlog.linearizableMap hclock hlin, fun _ _ _ _ _ _ _ hcheck hmain =>
    hlog.not_illegal hclock ht.calls_timed hlin hcheck hmain⟩

/-- A `Put` at group 1, an `Append` that is sent before the shard moves and executed at group 2, and
a `Get` there. -/
def clerksRun : List (Deployed.Action 3) := List.flatten
  [[.start 1 .put [0] [8]], servedRun.map .deployment, [.applied 1 0, .start 2 .append [0] [9]],
    handoverRun.map .deployment,
    [.deployment (.command group2 0 ⟨[0], [9], .append, 2, 0⟩), .deployment (.start 6 0)],
    (commitNext group2 3).map .deployment, [.applied 2 1, .start 1 .get [0] []],
    [.deployment (.command group2 0 ⟨[0], [], .get, 1, 1⟩), .deployment (.start 7 0)],
    (commitNext group2 4).map .deployment, [.applied 1 2]]

theorem shardkv_on_raft_clerksRun :
    ∃ w, run (Deployed.step twoGroups firstLabgob) (.init firstLabgob) clerksRun = some w ∧
      w.calls = [⟨1, ⟨1, [0], [8]⟩, 0, ⟨[]⟩, 1⟩, ⟨2, ⟨2, [0], [9]⟩, 2, ⟨[]⟩, 3⟩,
        ⟨1, ⟨0, [0], []⟩, 4, ⟨[8, 9]⟩, 5⟩] ∧ LinearizableMap w.calls := by
  obtain ⟨w, hw, hidle, hcalls⟩ : ∃ w,
      run (Deployed.step twoGroups firstLabgob) (.init firstLabgob) clerksRun = some w ∧
      (∀ args ∈ w.issued, w.pending args.clientId = none) ∧
      w.calls = [⟨1, ⟨1, [0], [8]⟩, 0, ⟨[]⟩, 1⟩, ⟨2, ⟨2, [0], [9]⟩, 2, ⟨[]⟩, 3⟩,
        ⟨1, ⟨0, [0], []⟩, 4, ⟨[8, 9]⟩, 5⟩] := by
    decide +kernel
  have hcf : Returns twoGroups := NeverUnassigned.returns (by decide +kernel)
  refine ⟨w, hw, hcalls, (shardkv_on_raft hcf (by decide +kernel) (by decide) hw hidle
    monotone_id ⟨w.calls, ?_, .refl _⟩).1⟩
  exact List.forall₂_same.2 fun _ _ => ⟨rfl, rfl, le_rfl, le_rfl⟩

end DistSys.ShardKV
