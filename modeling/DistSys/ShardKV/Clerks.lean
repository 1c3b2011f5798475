import DistSys.ShardKV.Contents

/-!
# Clerks and exactly-once execution

The clerks of `shardkv/client.go` on top of the store. A clerk has one command at a time under way;
its requests may reach any group at any time, also long after the clerk has moved on, and may be
committed any number of times. The clerk moves on when it gets `OK` or `ErrNoKey`, from its own
entry in a log or from the table of a replica that has the command already.

* `known` — the tables of the groups know only commands that have been executed.
* `Clerks.Inv` — each issued command has its own number; a write that its clerk has left behind was
  executed.
* `exactly_once` — every write is executed at most once by all groups together, and exactly once
  when its clerk has moved on; the values at the groups are what the executed operations make.
-/

namespace DistSys.ShardKV

open ShardCtrler (Config ShardId MemoryConfigStateMachine)

variable {cf : MemoryConfigStateMachine} {G : Groups} {g : Gid} {kv : ShardKV} {command : Command}
  {args : CommandArgs} {executed : List Executed} {client id : ℤ}

/-! ## The model -/

structure Clerks where
  store : Store
  commandId : ℤ → ℤ
  /-- The command that the clerk is executing. -/
  pending : ℤ → Option CommandArgs
  /-- Every command that a clerk has sent. -/
  issued : List CommandArgs

namespace Clerks

def init : Clerks := ⟨Store.init, fun _ => 0, fun _ => none, []⟩

inductive Action where
  /-- A clerk starts a command. -/
  | start (client : ℤ) (op : OperationType) (key : Key) (value : Value)
  /-- A step of the store; operations are those that the clerks have sent. -/
  | store (a : Store.Action)
  /-- The clerk gets the reply to its entry at position `k`. -/
  | applied (client : ℤ) (g : Gid) (k : ℕ)
  /-- The clerk gets the answer of a replica that does not pass the command on. -/
  | answered (client : ℤ) (g : Gid) (k : ℕ)

/-- The replies with which a clerk is done. -/
def Done (reply : CommandReply) : Prop := reply.err = .ok ∨ reply.err = .errNoKey

instance (reply : CommandReply) : Decidable (Done reply) := inferInstanceAs (Decidable (_ ∨ _))

variable (ck : Clerks)

/-- The clerk returns and takes the next number. -/
def moveOn (client : ℤ) : Clerks :=
  { ck with
    commandId := Function.update ck.commandId client (ck.commandId client + 1)
    pending := Function.update ck.pending client none }

/-- The operations of the action were sent by clerks. -/
def Sent : Store.Action → Prop
  | .operation _ args => args ∈ ck.issued
  | _ => True

instance : DecidablePred ck.Sent
  | .operation _ args => inferInstanceAs (Decidable (args ∈ ck.issued))
  | .emptyShards _ | .configurationAction _ _ | .migrationAction _ _ _ _ | .gcAction _ _ _ _
  | .getShardsData _ _ | .deleteShardsData _ _ | .deleteShardsReply _ | .commit _ =>
    inferInstanceAs (Decidable True)

def step (cf : MemoryConfigStateMachine) (ck : Clerks) : Action → Option Clerks
  | .start client op key value =>
    if ck.pending client = none then
      let args : CommandArgs := ⟨key, value, op, client, ck.commandId client⟩
      some { ck with
        pending := Function.update ck.pending client (some args)
        issued := ck.issued ++ [args] }
    else none
  | .store a =>
    if ck.Sent a then (Store.step cf ck.store a).map fun st => { ck with store := st } else none
  | .applied client g k =>
    match ck.pending client, (ck.store.groups.logs g)[k]? with
    | some args, some (.operation args') =>
      if args' = args ∧ Done ((ck.store.groups.replica g k).applyOperation args).2 then
        some (ck.moveOn client)
      else none
    | _, _ => none
  | .answered client g k =>
    (ck.pending client).bind fun args =>
      if ((ck.store.groups.replica g k).command args).any (Done ·) then some (ck.moveOn client)
      else none

end Clerks

/-! ## What the tables know -/

/-- The executed writes with this number. -/
def writesOf (executed : List Executed) (client id : ℤ) : List Executed :=
  executed.filter fun e =>
    e.args.op ≠ .get ∧ e.args.clientId = client ∧ e.args.commandId = id

/-- A command that a table knows is not newer than one that has been executed. -/
def Known (executed : List Executed) (client id : ℤ) : Prop :=
  ∃ e ∈ executed, e.args.op ≠ .get ∧ e.args.clientId = client ∧ id ≤ e.args.commandId

theorem Known.append (h : Known executed client id) (new : List Executed) :
    Known (executed ++ new) client id := by
  obtain ⟨e, he, hop⟩ := h
  exact ⟨e, List.mem_append_left _ he, hop⟩

theorem known_commit (h : ∀ g kv, G.Visited g kv → ∀ c id, kv.isDuplicateRequest c id →
      Known G.executed c id)
    (ho : Origin cf G g command) {g' : Gid} (hv : (G.commit g command).Visited g' kv)
    (hdup : kv.isDuplicateRequest client id) :
    Known (G.commit g command).executed client id := by
  rcases Groups.visited_commit.1 hv with hv | ⟨rfl, rfl⟩
  · exact (h g' kv hv client id hdup).append _
  · rcases isDuplicateRequest_of_apply hdup with hold | ⟨args, rfl, hex, hop, rfl, hle⟩ |
      ⟨info, rfl, hinfo⟩
    · exact (h g' _ (G.visited_group g') client id hold).append _
    · refine ⟨⟨g', args, ((G.group g').applyOperation args).2⟩, List.mem_append_right _ ?_, hop, rfl,
        hle⟩
      rw [execution_of_executes hex]
      exact List.mem_singleton_self _
    · -- the table of a pull reply is that of a state of another group
      cases ho with
      | @insertShards t kv₁ kv₂ hv₁ ht hv₂ hn =>
        rw [getShardsData, if_neg hn.not_gt] at hinfo
        exact (h t.dst kv₂ hv₂ client id hinfo).append _

/-- The tables know only what has been executed. -/
theorem known {st : Store} {as : List Store.Action}
    (hrun : run (Store.step cf) Store.init as = some st) (hv : st.groups.Visited g kv)
    (hdup : kv.isDuplicateRequest client id) : Known st.groups.executed client id := by
  refine Store.groups_induction (P := fun G => ∀ g kv, G.Visited g kv → ∀ c id,
    kv.isDuplicateRequest c id → Known G.executed c id) ?_ ?_ hrun g kv hv client id hdup
  · rintro g kv ⟨k, rfl⟩ c id hdup
    have hnew : Groups.init.replica g k = new g := by
      simp [Groups.replica, Groups.init]
    rw [hnew] at hdup
    cases hdup
  · intro G g command h ho g' kv hv c id hdup
    exact known_commit h ho hv hdup

/-- After a write that is answered with a final reply the table knows it. -/
theorem isDuplicateRequest_of_done (hop : args.op ≠ .get)
    (hdone : Clerks.Done (kv.applyOperation args).2) :
    (kv.applyOperation args).1.isDuplicateRequest args.clientId args.commandId := by
  by_cases hex : kv.Executes args
  · rw [applyOperation_of_executes hex, remember, if_pos hop]
    simp [isDuplicateRequest, isDuplicate]
  · rw [applyOperation_of_not_executes hex]
    by_cases hserve : kv.canServe (key2shard args.key)
    · exact (not_not.1 fun hdup => hex ⟨hserve, hdup⟩).2
    · rw [applyOperation, if_pos hserve] at hdone
      rcases hdone with h | h <;> cases h

/-! ## The invariant -/

namespace Clerks

structure Inv (ck : Clerks) : Prop where
  pending : ∀ {c args}, ck.pending c = some args →
    args ∈ ck.issued ∧ args.clientId = c ∧ args.commandId = ck.commandId c
  issued : ∀ {args}, args ∈ ck.issued →
    args.commandId < ck.commandId args.clientId ∨ ck.pending args.clientId = some args
  unique : ∀ {args args'}, args ∈ ck.issued → args' ∈ ck.issued →
    args.clientId = args'.clientId → args.commandId = args'.commandId → args = args'
  sent : ∀ {e}, e ∈ ck.store.groups.executed → e.args ∈ ck.issued
  once : ∀ c id, (writesOf ck.store.groups.executed c id).length ≤ 1
  done : ∀ {args}, args ∈ ck.issued → args.op ≠ .get →
    args.commandId < ck.commandId args.clientId → ∃ e ∈ ck.store.groups.executed, e.args = args

variable {ck ck' : Clerks}

theorem inv_init : Inv init := by
  refine ⟨fun h => ?_, fun h => ?_, fun h => ?_, fun h => ?_, fun c id => ?_, fun h => ?_⟩
  all_goals first | exact Nat.zero_le _ | cases h

theorem Inv.start (h : Inv ck) (hidle : ck.pending client = none) (op : OperationType) (key : Key)
    (value : Value) :
    let args : CommandArgs := ⟨key, value, op, client, ck.commandId client⟩
    Inv { ck with
      pending := Function.update ck.pending client (some args)
      issued := ck.issued ++ [args] } := by
  intro args
  -- the numbers of the clerk's earlier commands are smaller
  have hold : ∀ args' ∈ ck.issued, args'.clientId = client →
      args'.commandId < ck.commandId client := by
    rintro args' hargs' rfl
    rcases h.issued hargs' with hlt | hp
    · exact hlt
    · rw [hidle] at hp
      cases hp
  constructor
  · intro c args' hp
    by_cases hc : c = client
    · subst hc
      simp only [Function.update_self, Option.some.injEq] at hp
      subst hp
      exact ⟨List.mem_append_right _ (List.mem_singleton_self _), rfl, rfl⟩
    · simp only [Function.update_of_ne hc] at hp
      obtain ⟨hmem, hrest⟩ := h.pending hp
      exact ⟨List.mem_append_left _ hmem, hrest⟩
  · intro args' hargs'
    rcases List.mem_append.1 hargs' with hmem | hmem
    · by_cases hc : args'.clientId = client
      · exact .inl (hc ▸ hold args' hmem hc)
      · simpa only [Function.update_of_ne hc] using h.issued hmem
    · rw [List.mem_singleton.1 hmem]
      exact .inr (Function.update_self ..)
  · intro a b ha hb hclient hid
    rcases List.mem_append.1 ha with ha | ha <;> rcases List.mem_append.1 hb with hb | hb
    · exact h.unique ha hb hclient hid
    · rw [List.mem_singleton.1 hb] at hclient hid
      exact absurd hid (hold a ha hclient).ne
    · rw [List.mem_singleton.1 ha] at hclient hid
      exact absurd hid.symm (hold b hb hclient.symm).ne
    · rw [List.mem_singleton.1 ha, List.mem_singleton.1 hb]
  · exact fun he => List.mem_append_left _ (h.sent he)
  · exact h.once
  · intro args' hargs' hop hlt
    rcases List.mem_append.1 hargs' with hmem | hmem
    · exact h.done hmem hop hlt
    · rw [List.mem_singleton.1 hmem] at hlt
      exact absurd hlt (lt_irrefl _)

/-- A command under way that the tables know has been executed. -/
theorem Inv.executed_of_known (h : Inv ck) (hp : ck.pending client = some args)
    (hk : Known ck.store.groups.executed client args.commandId) :
    ∃ e ∈ ck.store.groups.executed, e.args = args := by
  obtain ⟨e, he, -, rfl, hle⟩ := hk
  rcases h.issued (h.sent he) with hlt | hp'
  · rw [(h.pending hp).2.2] at hle
    omega
  · rw [hp, Option.some.injEq] at hp'
    exact ⟨e, he, hp'.symm⟩

theorem Inv.moveOn (h : Inv ck) (hp : ck.pending client = some args)
    (hk : args.op ≠ .get → Known ck.store.groups.executed client args.commandId) :
    Inv (ck.moveOn client) := by
  obtain ⟨hmem, hclient, hid⟩ := h.pending hp
  constructor
  · intro c args' hp'
    by_cases hc : c = client
    · simp [Clerks.moveOn, hc] at hp'
    · simp only [Clerks.moveOn, Function.update_of_ne hc] at hp' ⊢
      exact h.pending hp'
  · intro args' hargs'
    by_cases hc : args'.clientId = client
    · left
      simp only [Clerks.moveOn, hc, Function.update_self]
      rcases h.issued hargs' with hlt | hp'
      · rw [hc] at hlt
        omega
      · rw [hc, hp, Option.some.injEq] at hp'
        subst hp'
        omega
    · simpa only [Clerks.moveOn, Function.update_of_ne hc] using h.issued hargs'
  · exact h.unique
  · exact h.sent
  · exact h.once
  · intro args' hargs' hop hlt
    by_cases hc : args'.clientId = client
    · rcases h.issued hargs' with hlt' | hp'
      · exact h.done hargs' hop hlt'
      · -- the command that the clerk has just left behind
        rw [hc, hp, Option.some.injEq] at hp'
        subst hp'
        exact h.executed_of_known hp (hk hop)
    · simp only [Clerks.moveOn, Function.update_of_ne hc] at hlt
      exact h.done hargs' hop hlt

theorem mem_writesOf {e : Executed} :
    e ∈ writesOf executed client id ↔
      e ∈ executed ∧ e.args.op ≠ .get ∧ e.args.clientId = client ∧ e.args.commandId = id := by
  simp [writesOf]

/-- A write that is new to the executed operations keeps each of them single. -/
theorem length_writesOf_concat {e : Executed} (hone : (writesOf executed client id).length ≤ 1)
    (hnew : e.args.op ≠ .get → writesOf executed e.args.clientId e.args.commandId = []) :
    (writesOf (executed ++ [e]) client id).length ≤ 1 := by
  have happend : writesOf (executed ++ [e]) client id =
      writesOf executed client id ++ writesOf [e] client id := List.filter_append ..
  rw [happend, List.length_append]
  by_cases hmatch : e.args.op ≠ .get ∧ e.args.clientId = client ∧ e.args.commandId = id
  · obtain ⟨hop, rfl, rfl⟩ := hmatch
    rw [hnew hop, List.length_nil, Nat.zero_add]
    exact List.length_filter_le ..
  · have hnil : writesOf [e] client id = [] := by
      rw [writesOf, List.filter_singleton, decide_eq_false hmatch, cond_false]
    rw [hnil]
    exact hone

section Run

variable {as : List Store.Action} {a : Store.Action} {st : Store}

/-- A write that a group executes has not been executed before. -/
theorem Inv.writesOf_eq_nil (h : Inv ck) (hret : Returns cf)
    (hrun : run (Store.step cf) Store.init as = some ck.store) (hmem : args ∈ ck.issued)
    (hex : (ck.store.groups.group g).Executes args) (hop : args.op ≠ .get) :
    writesOf ck.store.groups.executed args.clientId args.commandId = [] := by
  rw [List.eq_nil_iff_forall_not_mem]
  intro e hwrite
  obtain ⟨he, heop, hclient, hid⟩ := mem_writesOf.1 hwrite
  -- an earlier execution was one of the same command, so the table of the group knows it
  obtain rfl := h.unique (h.sent he) hmem hclient hid
  have hup := (Contents.of_run hret hrun).of_canServe (ShardKV.Inv.of_run hrun) hex.1
  exact hex.2 ⟨hop, hup.table e he heop rfl⟩

theorem Inv.store (h : Inv ck) (hret : Returns cf)
    (hrun : run (Store.step cf) Store.init as = some ck.store) (hsent : ck.Sent a)
    (hstep : Store.step cf ck.store a = some st) : Inv { ck with store := st } := by
  obtain ⟨-, hg | ⟨g, command, ho, hg, hop⟩⟩ :=
    Store.step_cases (Store.sound_of_run hrun) hstep
  · exact ⟨h.pending, h.issued, h.unique, fun he => h.sent (hg ▸ he), fun c id => hg ▸ h.once c id,
      fun hmem hop hlt => hg ▸ h.done hmem hop hlt⟩
  · have hexec : st.groups.executed = ck.store.groups.executed ++
        Groups.execution g (ck.store.groups.group g) command := by rw [hg]; rfl
    have hissued : ∀ args, command = .operation args → args ∈ ck.issued := by
      intro args hcommand
      have hargs := hop args hcommand
      subst hargs
      exact hsent
    refine ⟨h.pending, h.issued, h.unique, fun {e} he => ?_, fun c id => ?_,
      fun hmem hop hlt => ?_⟩
    · rw [hexec] at he
      rcases List.mem_append.1 he with he | he
      · exact h.sent he
      · obtain ⟨args, rfl, -, rfl⟩ := mem_execution he
        exact hissued args rfl
    · rw [hexec]
      rcases hnew : Groups.execution g (ck.store.groups.group g) command with _ | ⟨e, rest⟩
      · rw [List.append_nil]
        exact h.once c id
      · obtain ⟨args, rfl, hex, rfl⟩ := mem_execution (hnew ▸ List.mem_cons_self : e ∈ _)
        rw [execution_of_executes hex, List.cons.injEq] at hnew
        obtain ⟨-, rfl⟩ := hnew
        exact length_writesOf_concat (h.once c id)
          (h.writesOf_eq_nil hret hrun (hissued args rfl) hex)
    · obtain ⟨e, he, heq⟩ := h.done hmem hop hlt
      exact ⟨e, hexec ▸ List.mem_append_left _ he, heq⟩

end Run

/-- The states of the store under the clerks are states of the store. -/
theorem step_inv (hret : Returns cf) {a : Action}
    (hck : (∃ as, run (Store.step cf) Store.init as = some ck.store) ∧ Inv ck)
    (hstep : step cf ck a = some ck') :
    (∃ as, run (Store.step cf) Store.init as = some ck'.store) ∧ Inv ck' := by
  obtain ⟨⟨as, hrun⟩, h⟩ := hck
  cases a with
  | start client op key value =>
    simp only [step] at hstep
    split at hstep
    · rename_i hidle
      cases hstep
      exact ⟨⟨as, hrun⟩, h.start hidle op key value⟩
    · cases hstep
  | store a =>
    simp only [step] at hstep
    split at hstep
    · rename_i hsent
      obtain ⟨st, hst, rfl⟩ := Option.map_eq_some_iff.1 hstep
      refine ⟨⟨as ++ [a], run_append_of hrun ?_⟩, h.store hret hrun hsent hst⟩
      rw [run_cons, hst, Option.bind_some, run_nil]
    · cases hstep
  | applied client g k =>
    simp only [step] at hstep
    split at hstep
    · rename_i args args' hp hentry
      split at hstep
      · rename_i hdone
        obtain ⟨rfl, hdone⟩ := hdone
        cases hstep
        refine ⟨⟨as, hrun⟩, h.moveOn hp fun hop => ?_⟩
        -- the state after the entry knows the command
        obtain ⟨hlt, hget⟩ := List.getElem?_eq_some_iff.1 hentry
        have hdup := isDuplicateRequest_of_done hop hdone
        have hv : ck.store.groups.Visited g
            ((ck.store.groups.replica g k).applyOperation args').1 := by
          refine ⟨k + 1, ?_⟩
          rw [Groups.replica_succ hlt, hget]
          rfl
        exact (h.pending hp).2.1 ▸ known hrun hv hdup
      · cases hstep
    · cases hstep
  | answered client g k =>
    obtain ⟨args, hp, hstep⟩ := Option.bind_eq_some_iff.1 hstep
    split at hstep
    · rename_i hdone
      cases hstep
      refine ⟨⟨as, hrun⟩, h.moveOn hp fun hop => ?_⟩
      have hdup : (ck.store.groups.replica g k).isDuplicateRequest args.clientId args.commandId := by
        by_contra hnot
        rw [ShardKV.command, if_neg fun h => hnot h.2] at hdone
        split at hdone
        · simp [Done] at hdone
        · cases hdone
      exact (h.pending hp).2.1 ▸ known hrun ⟨k, rfl⟩ hdup
    · cases hstep

end Clerks

/-! ## Exactly once -/

/-- **Exactly-once execution across migration.** However the requests of the clerks are delivered
and committed and however the shards move, every write is executed at most once by all groups
together; once its clerk has moved on it has been executed exactly once. The value of a key at the
group that serves it is what the executed operations make of it, each applied once. -/
theorem exactly_once (hcf : NeverUnassigned cf) {as : List Clerks.Action} {ck : Clerks}
    (hrun : run (Clerks.step cf) Clerks.init as = some ck) :
    (∀ client id, (writesOf ck.store.groups.executed client id).length ≤ 1) ∧
      (∀ args ∈ ck.issued, args.op ≠ .get → args.commandId < ck.commandId args.clientId →
        ∃ e, writesOf ck.store.groups.executed args.clientId args.commandId = [e] ∧
          e.args = args) ∧
      ∀ g key, (ck.store.groups.group g).canServe (key2shard key) →
        ((ck.store.groups.group g).stateMachine (key2shard key)).kv key =
          valueOf ck.store.groups.executed key := by
  obtain ⟨⟨bs, hstore⟩, h⟩ :=
    run_invariant (P := fun ck : Clerks =>
        (∃ as, run (Store.step cf) Store.init as = some ck.store) ∧ Clerks.Inv ck)
      (fun _ _ _ hck hstep => Clerks.step_inv hcf.returns hck hstep) hrun
      ⟨⟨[], rfl⟩, Clerks.inv_init⟩
  refine ⟨h.once, fun args hmem hop hlt => ?_, fun g key hserve => ?_⟩
  · obtain ⟨e, he, rfl⟩ := h.done hmem hop hlt
    have he' := Clerks.mem_writesOf.2 ⟨he, hop, rfl, rfl⟩
    have hone := h.once e.args.clientId e.args.commandId
    obtain ⟨e', he''⟩ := List.length_eq_one_iff.1
      (Nat.le_antisymm hone (List.length_pos_of_mem he'))
    rw [he'', List.mem_singleton] at he'
    exact ⟨e', he'', by rw [he']⟩
  · exact ((Contents.of_run hcf.returns hstore).of_canServe
      (ShardKV.Inv.of_run hstore) hserve).value rfl

/-- A clerk's write is executed at group 1, its shard moves to group 2, and the clerk retries there:
the retry is committed but not executed, and the clerk gets its answer from the table. -/
def retryRun : List Clerks.Action :=
  [Clerks.Action.start 1 .append [0] [7]] ++ (handoffRunOf ⟨[0], [7], .append, 1, 0⟩).map .store ++
    [Clerks.Action.store (.operation group2 ⟨[0], [7], .append, 1, 0⟩),
      Clerks.Action.answered 1 group2 100]

theorem exactly_once_retryRun :
    ∃ cf ck, configsOf handoffOps = some cf ∧
      run (Clerks.step cf) Clerks.init retryRun = some ck ∧
      (∃ e, writesOf ck.store.groups.executed 1 0 = [e] ∧ e.args = ⟨[0], [7], .append, 1, 0⟩) ∧
      ((ck.store.groups.group group2).stateMachine (key2shard [0])).kv [0] =
        valueOf ck.store.groups.executed [0] ∧
      valueOf ck.store.groups.executed [0] = some [7] := by
  have h : ∃ cf, configsOf handoffOps = some cf ∧ NeverUnassigned cf ∧
      ∃ ck, run (Clerks.step cf) Clerks.init retryRun = some ck ∧ ck.commandId 1 = 1 ∧
        ck.issued = [⟨[0], [7], .append, 1, 0⟩] ∧
        (ck.store.groups.group group2).canServe (key2shard [0]) ∧
        valueOf ck.store.groups.executed [0] = some [7] := by
    decide +kernel
  obtain ⟨cf, hcf, hnever, ck, hck, hid, hissued, hserve, hvalue⟩ := h
  obtain ⟨-, hdone, hcontent⟩ := exactly_once hnever hck
  refine ⟨cf, ck, hcf, hck, ?_, hcontent group2 [0] hserve, hvalue⟩
  refine hdone ⟨[0], [7], .append, 1, 0⟩ ?_ (by decide) ?_
  · rw [hissued]
    exact List.mem_singleton_self _
  · rw [hid]
    decide

end DistSys.ShardKV
