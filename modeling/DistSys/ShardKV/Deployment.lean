import DistSys.ShardKV.Ownership
import DistSys.ShardKV.OverRaft

/-!
# The sharded store on raft

All groups with all their servers, each group on a raft cluster of its own. The monitors and
handlers of a server run in the state of that server; the commands that they call `Execute` with are
passed to the `Start` of some server, once, more often or never. Which server a monitor runs on, and
that it should lead, is left open. The store of `Store` knows of a group only its log, and lets a
replica be in the state after any prefix of it.

* `Deployment` — the groups, the calls between them, and the commands under way.
* `Deploys` — the store that a deployment stands for. What a group starts in raft the store has as a
  proposal; the entries that the log of a group grows by are commits.

Main results: `store_on_raft` and `canServe_on_raft`.
-/

namespace DistSys

/-- A step puts the command into the trace that it starts. -/
theorem Cluster.start_mem_trace {n : ℕ} {C : Type} [Inhabited C] {c c' : Cluster n C}
    {a : Raft.Action n C} (hstep : c.step a = some c') {q : Fin n} {i : ℕ} {t : ℤ} {command : C}
    (hmem : .start q i t command ∈ c'.trace) :
    .start q i t command ∈ c.trace ∨ a = .start q command := by
  obtain ⟨c₀, hact, rfl⟩ := Cluster.step_cases hstep
  exact (hact.mem_start hmem).imp_right And.left

namespace ShardKV

open ShardCtrler (GroupMap ShardId MemoryConfigStateMachine)

theorem Replicas.start_mem_trace {n : ℕ} {labgob : Labgob} {gid : ℤ} {g g' : Replicas n}
    {a : Replicas.Action n} (hstep : g.step labgob gid a = some g') {q : Fin n} {i : ℕ} {t : ℤ}
    {command : Command} (hmem : .start q i t command ∈ g'.raft.trace) :
    .start q i t command ∈ g.raft.trace ∨ a = .raft (.start q command) := by
  cases Replicas.step_cases hstep with
  | raft b c hc hepoch => exact (Cluster.start_mem_trace hc hmem).imp_right (congrArg _)
  | receive b c s message hc hepoch hsends hw =>
    exact (Cluster.start_mem_trace hc hmem).imp_right (congrArg _)
  | crash s c hc => exact (Cluster.start_mem_trace hc hmem).imp_right (congrArg _)
  | apply s needSnapshot message r hr h => exact .inl hmem
  | takeSnapshot s index data c hs hc =>
    rcases Cluster.start_mem_trace hc hmem with hold | hnew
    · exact .inl hold
    · cases hnew

/-! ## The deployment -/

/-- `Start` is called. -/
def Replicas.Action.IsStart {n : ℕ} : Replicas.Action n → Bool
  | .raft (.start _ _) => true
  | _ => false

structure Deployment (n : ℕ) where
  groups : Gid → Replicas n
  pulls : List Task
  gcs : List Task
  /-- The commands that `Execute` has been called with. -/
  commands : List (Gid × Command)

namespace Deployment

variable {n : ℕ}

def init (labgob : Labgob) : Deployment n := ⟨fun g => Replicas.init labgob g, [], [], []⟩

inductive Action (n : ℕ) where
  /-- The handler of a client's request, after its checks. -/
  | command (g : Gid) (s : Fin n) (args : CommandArgs)
  | checkEntryInCurrentTermAction (g : Gid)
  /-- The monitors, on the server `s`. -/
  | configurationAction (g : Gid) (s : Fin n)
  | migrationAction (g dst : Gid) (s : Fin n) (shardIDs : List ShardId)
  | gcAction (g dst : Gid) (s : Fin n) (shardIDs : List ShardId)
  /-- The server `s` of the other group handles the `i`-th call. -/
  | getShardsData (i : ℕ) (s : Fin n)
  | deleteShardsData (i : ℕ) (s : Fin n)
  /-- The `i`-th delete call returns `OK`. -/
  | deleteShardsReply (i : ℕ)
  /-- The `i`-th command is passed to the raft of the server `s`. -/
  | start (i : ℕ) (s : Fin n)
  /-- Raft and the appliers of a group. -/
  | group (g : Gid) (a : Replicas.Action n)

variable (d : Deployment n)

def kv (g : Gid) (s : Fin n) : ShardKV := ((d.groups g).replicas s).kv

def execute (g : Gid) (command : Command) : Deployment n :=
  { d with commands := d.commands ++ [(g, command)] }

def setGroup (g : Gid) (group : Replicas n) : Deployment n :=
  { d with groups := Function.update d.groups g group }

/-- The call for the shards with the status whose last owner was `dst`. -/
def task (status : ShardStatus) (g dst : Gid) (s : Fin n) (shardIDs : List ShardId) : Option Task :=
  if shardIDs ≠ [] ∧ shardIDs.Perm ((d.kv g s).getShardIDsByStatus status dst) then
    some ⟨g, dst, ⟨(d.kv g s).num, shardIDs⟩⟩
  else none

def step (cf : MemoryConfigStateMachine) (labgob : Labgob) (d : Deployment n) :
    Action n → Option (Deployment n)
  | .command g s args =>
    if ((d.kv g s).command args).isNone then some (d.execute g (.operation args)) else none
  | .checkEntryInCurrentTermAction g => some (d.execute g .emptyShards)
  | .configurationAction g s => ((d.kv g s).configurationAction cf).map (d.execute g)
  | .migrationAction g dst s shardIDs =>
    (d.task .pulling g dst s shardIDs).map fun t => { d with pulls := d.pulls ++ [t] }
  | .gcAction g dst s shardIDs =>
    (d.task .gcing g dst s shardIDs).map fun t => { d with gcs := d.gcs ++ [t] }
  | .getShardsData i s =>
    d.pulls[i]?.bind fun t =>
      let reply := (d.kv t.dst s).getShardsData t.args
      if reply.err = .ok then some (d.execute t.src (.insertShards reply)) else none
  | .deleteShardsData i s =>
    d.gcs[i]?.bind fun t => ((d.kv t.dst s).deleteShardsData t.args).map (d.execute t.dst)
  | .deleteShardsReply i => d.gcs[i]?.map fun t => d.execute t.src (.deleteShards t.args)
  | .start i s =>
    d.commands[i]?.bind fun p =>
      ((d.groups p.1).step labgob p.1 (.raft (.start s p.2))).map (d.setGroup p.1)
  | .group g a =>
    if a.IsStart then none else ((d.groups g).step labgob g a).map (d.setGroup g)

/-- Raft overwrites no request that is still to be encoded, in any group. -/
def NoOverwrite (d : Deployment n) : Action n → Prop
  | .start i s => ∀ p ∈ d.commands[i]?, (d.groups p.1).NoOverwrite (.raft (.start s p.2))
  | .group g a => (d.groups g).NoOverwrite a
  | _ => True

instance (d : Deployment n) : DecidablePred d.NoOverwrite
  | .start i s => inferInstanceAs
    (Decidable (∀ p ∈ d.commands[i]?, (d.groups p.1).NoOverwrite (.raft (.start s p.2))))
  | .group g a => inferInstanceAs (Decidable ((d.groups g).NoOverwrite a))
  | .command _ _ _ | .checkEntryInCurrentTermAction _ | .configurationAction _ _
  | .migrationAction _ _ _ _ | .gcAction _ _ _ _ | .getShardsData _ _ | .deleteShardsData _ _
  | .deleteShardsReply _ => isTrue trivial

def Action.needsSnapshot : Action n → Bool
  | .group _ a => a.needsSnapshot
  | _ => false

end Deployment

/-! ## Commits of the store -/

/-- The operations of the action are among those that are asked for. -/
def Store.Action.Among (asked : CommandArgs → Prop) : Store.Action → Prop
  | .operation _ args => asked args
  | _ => True

/-- The store can commit the command. -/
def Proposed (asked : CommandArgs → Prop) (st : Store) (p : Gid × Command) : Prop :=
  p ∈ st.proposals ∨ (∃ args, asked args ∧ p.2 = .operation args) ∨ p.2 = .emptyShards

variable {asked asked' : CommandArgs → Prop}

theorem Proposed.mono {st st' : Store} {p : Gid × Command} (h : Proposed asked st p)
    (hasked : ∀ args, asked args → asked' args) (hst : ∀ p ∈ st.proposals, p ∈ st'.proposals) :
    Proposed asked' st' p := by
  rcases h with hmem | ⟨args, hargs, hp⟩ | hp
  · exact .inl (hst p hmem)
  · exact .inr (.inl ⟨args, hasked args hargs, hp⟩)
  · exact .inr (.inr hp)

theorem Proposed.commit {st : Store} {g : Gid} {command : Command}
    (h : Proposed asked st (g, command)) (cf : MemoryConfigStateMachine) :
    ∃ a : Store.Action, a.Among asked ∧ Store.step cf st a = some (st.commit g command) := by
  rcases h with hmem | ⟨args, hargs, rfl⟩ | rfl
  · obtain ⟨i, hi⟩ := List.mem_iff_getElem?.1 hmem
    exact ⟨.commit i, trivial, by rw [Store.step, hi]; rfl⟩
  · exact ⟨.operation g args, hargs, rfl⟩
  · exact ⟨.emptyShards g, trivial, rfl⟩

/-- The log of a group grows by commands that the store can commit. -/
theorem exists_commits (cf : MemoryConfigStateMachine) {st : Store} {g : Gid}
    {commands : List Command} (h : ∀ command ∈ commands, Proposed asked st (g, command)) :
    ∃ bs st', run (Store.step cf) st bs = some st' ∧ (∀ b ∈ bs, b.Among asked) ∧
      st'.pulls = st.pulls ∧ st'.gcs = st.gcs ∧ st'.proposals = st.proposals ∧
      st'.groups.logs = Function.update st.groups.logs g (st.groups.logs g ++ commands) := by
  induction commands generalizing st with
  | nil =>
    refine ⟨[], st, rfl, fun b hb => absurd hb List.not_mem_nil, rfl, rfl, rfl, ?_⟩
    rw [List.append_nil, Function.update_eq_self]
  | cons command commands ih =>
    obtain ⟨a, hamong, ha⟩ := (h command List.mem_cons_self).commit cf
    have hrest : ∀ command' ∈ commands, Proposed asked (st.commit g command) (g, command') :=
      fun command' hmem => h command' (List.mem_cons_of_mem _ hmem)
    obtain ⟨bs, st', hrun, hbs, hpulls, hgcs, hproposals, hlogs⟩ := ih hrest
    refine ⟨a :: bs, st', run_cons_eq_some.2 ⟨_, ha, hrun⟩, List.forall_mem_cons.2 ⟨hamong, hbs⟩,
      hpulls, hgcs, hproposals, ?_⟩
    rw [hlogs]
    simp only [Store.commit, Groups.commit, Function.update_self, Function.update_idem,
      List.append_assoc, List.singleton_append]

/-! ## The store of a deployment -/

/-- `st` is the store that the deployment stands for, if the clients ask for these operations. -/
structure Deploys {n : ℕ} (asked : CommandArgs → Prop) (d : Deployment n) (st : Store) : Prop where
  groups : ∀ g : Gid, ∃ r, Follows g (d.groups g) r ∧ st.groups.logs g = r.log.map Prod.snd
  pulls : st.pulls = d.pulls
  gcs : st.gcs = d.gcs
  commands : ∀ p ∈ d.commands, Proposed asked st p
  started : ∀ g q i t command, .start q i t command ∈ (d.groups g).raft.trace →
    Proposed asked st (g, command)

namespace Deploys

variable {n : ℕ} {cf : MemoryConfigStateMachine} {labgob : Labgob} {d d' : Deployment n}
  {st : Store}

theorem init (labgob : Labgob) : Deploys asked (.init labgob : Deployment n) .init where
  groups g := ⟨_, .init labgob g, rfl⟩
  pulls := rfl
  gcs := rfl
  commands _ hp := absurd hp List.not_mem_nil
  started _ _ _ _ _ hmem := absurd hmem List.not_mem_nil

theorem mono (h : Deploys asked d st) (hasked : ∀ args, asked args → asked' args) :
    Deploys asked' d st :=
  ⟨h.groups, h.pulls, h.gcs, fun p hp => (h.commands p hp).mono hasked fun _ => id,
    fun g q i t command hmem => (h.started g q i t command hmem).mono hasked fun _ => id⟩

/-- The state of a server is one that its group visits. -/
theorem kv_eq (h : Deploys asked d st) (g : Gid) (s : Fin n) :
    d.kv g s = st.groups.replica g ((d.groups g).replicas s).lastApplied := by
  obtain ⟨r, hfollows, hlog⟩ := h.groups g
  rw [Groups.replica, hlog, ← List.map_take]
  exact (hfollows.servers s).state

theorem execute (h : Deploys asked d st) {g : Gid} {command : Command} {st' : Store}
    (hgroups : st'.groups = st.groups) (hpulls : st'.pulls = st.pulls) (hgcs : st'.gcs = st.gcs)
    (hst : ∀ p ∈ st.proposals, p ∈ st'.proposals) (hnew : Proposed asked st' (g, command)) :
    Deploys asked (d.execute g command) st' := by
  refine ⟨fun q => ?_, hpulls.trans h.pulls, hgcs.trans h.gcs, fun p hp => ?_,
    fun q r i t c hmem => (h.started q r i t c hmem).mono (fun _ => id) hst⟩
  · rw [hgroups]
    exact h.groups q
  · rcases List.mem_append.1 hp with hp | hp
    · exact (h.commands p hp).mono (fun _ => id) hst
    · rw [List.mem_singleton.1 hp]
      exact hnew

/-- A monitor or handler calls `Execute`, and the store proposes. -/
theorem propose (h : Deploys asked d st) (g : Gid) (command : Command) :
    Deploys asked (d.execute g command) (st.propose g command) :=
  h.execute rfl rfl rfl (fun _ => List.mem_append_left _)
    (.inl (List.mem_append_right _ (List.mem_singleton_self _)))

theorem task_eq (h : Deploys asked d st) (status : ShardStatus) (g dst : Gid) (s : Fin n)
    (shardIDs : List ShardId) :
    st.task status g dst ((d.groups g).replicas s).lastApplied shardIDs =
      d.task status g dst s shardIDs := by
  rw [Store.task, Deployment.task, h.kv_eq g s]

/-- A step of one group. -/
theorem group (h : Deploys asked d st) {g : Gid} {a : Replicas.Action n} {group : Replicas n}
    (hno : (d.groups g).NoOverwrite a) (hsnap : a.needsSnapshot = false)
    (hstart : ∀ s command, a = .raft (.start s command) → Proposed asked st (g, command))
    (hstep : (d.groups g).step labgob g a = some group) :
    ∃ bs st', run (Store.step cf) st bs = some st' ∧ (∀ b ∈ bs, b.Among asked) ∧
      Deploys asked (d.setGroup g group) st' := by
  obtain ⟨r, hfollows, hlog⟩ := h.groups g
  obtain ⟨r', hfollows', rest, hrest⟩ := hfollows.step hno hsnap hstep
  have hstarted : ∀ q i t command, .start q i t command ∈ group.raft.trace →
      Proposed asked st (g, command) := by
    intro q i t command hmem
    rcases Replicas.start_mem_trace hstep hmem with hold | hnew
    · exact h.started g q i t command hold
    · exact hstart q command hnew
  -- what the log grows by was started
  have hproposed : ∀ command ∈ rest.map Prod.snd, Proposed asked st (g, command) := by
    intro command hmem
    obtain ⟨e, he, rfl⟩ := List.mem_map.1 hmem
    obtain ⟨p, hp⟩ := List.mem_iff_getElem?.1 (hrest ▸ List.mem_append_right r.log he : e ∈ r'.log)
    obtain ⟨q, hq⟩ := hfollows'.sim.log_started hfollows'.orderly hp
    exact hstarted q _ _ _ hq
  obtain ⟨bs, st', hrun, hbs, hpulls, hgcs, hproposals, hlogs⟩ := exists_commits cf hproposed
  have hmono : ∀ p ∈ st.proposals, p ∈ st'.proposals := fun p hp => hproposals ▸ hp
  refine ⟨bs, st', hrun, hbs, fun q => ?_, hpulls.trans h.pulls, hgcs.trans h.gcs,
    fun p hp => (h.commands p hp).mono (fun _ => id) hmono, fun q s i t command hmem => ?_⟩
  · rw [hlogs, Deployment.setGroup]
    by_cases hq : q = g
    · subst hq
      simp only [Function.update_self]
      exact ⟨r', hfollows', by rw [hlog, ← hrest, List.map_append]⟩
    · simp only [Function.update_of_ne hq]
      exact h.groups q
  · rw [Deployment.setGroup] at hmem
    by_cases hq : q = g
    · subst hq
      simp only [Function.update_self] at hmem
      exact (hstarted s i t command hmem).mono (fun _ => id) hmono
    · simp only [Function.update_of_ne hq] at hmem
      exact (h.started q s i t command hmem).mono (fun _ => id) hmono

/-- **A step of the deployment is a run of the store.** -/
theorem step (h : Deploys asked d st) {a : Deployment.Action n} (hno : d.NoOverwrite a)
    (hsnap : a.needsSnapshot = false)
    (hasked : ∀ g s args, a = .command g s args → asked args)
    (hstep : d.step cf labgob a = some d') :
    ∃ bs st', run (Store.step cf) st bs = some st' ∧ (∀ b ∈ bs, b.Among asked) ∧
      Deploys asked d' st' := by
  have hone : ∀ {b : Store.Action}, b.Among asked → ∀ b' ∈ [b], b'.Among asked :=
    fun hb b' hb' => List.mem_singleton.1 hb' ▸ hb
  have hnil : ∀ b ∈ ([] : List Store.Action), b.Among asked :=
    fun b hb => absurd hb List.not_mem_nil
  cases a with
  | command g s args =>
    rw [Deployment.step] at hstep
    split at hstep
    · cases hstep
      have hargs := hasked g s args rfl
      exact ⟨[], st, rfl, hnil,
        h.execute rfl rfl rfl (fun _ => id) (.inr (.inl ⟨args, hargs, rfl⟩))⟩
    · cases hstep
  | checkEntryInCurrentTermAction g =>
    cases hstep
    exact ⟨[], st, rfl, hnil, h.execute rfl rfl rfl (fun _ => id) (.inr (.inr rfl))⟩
  | configurationAction g s =>
    obtain ⟨command, hcommand, rfl⟩ := Option.map_eq_some_iff.1 hstep
    refine ⟨[.configurationAction g ((d.groups g).replicas s).lastApplied], _, ?_, hone trivial,
      h.propose g command⟩
    rw [h.kv_eq g s] at hcommand
    rw [run_cons, Store.step, hcommand]
    rfl
  | migrationAction g dst s shardIDs =>
    obtain ⟨t, ht, rfl⟩ := Option.map_eq_some_iff.1 hstep
    refine ⟨[.migrationAction g dst ((d.groups g).replicas s).lastApplied shardIDs],
      { st with pulls := st.pulls ++ [t] }, ?_, hone trivial, h.groups, ?_, h.gcs, h.commands,
      h.started⟩
    · rw [run_cons, Store.step, h.task_eq, ht]
      rfl
    · simp only [h.pulls]
  | gcAction g dst s shardIDs =>
    obtain ⟨t, ht, rfl⟩ := Option.map_eq_some_iff.1 hstep
    refine ⟨[.gcAction g dst ((d.groups g).replicas s).lastApplied shardIDs],
      { st with gcs := st.gcs ++ [t] }, ?_, hone trivial, h.groups, h.pulls, ?_, h.commands,
      h.started⟩
    · rw [run_cons, Store.step, h.task_eq, ht]
      rfl
    · simp only [h.gcs]
  | getShardsData i s =>
    obtain ⟨t, ht, hstep⟩ := Option.bind_eq_some_iff.1 hstep
    simp only at hstep
    split at hstep
    · rename_i hok
      cases hstep
      refine ⟨[.getShardsData i ((d.groups t.dst).replicas s).lastApplied], _, ?_, hone trivial,
        h.propose _ _⟩
      rw [h.kv_eq t.dst s] at hok ⊢
      rw [run_cons, Store.step, h.pulls, ht, Option.bind_some]
      simp only [if_pos hok]
      rfl
    · cases hstep
  | deleteShardsData i s =>
    obtain ⟨t, ht, hstep⟩ := Option.bind_eq_some_iff.1 hstep
    obtain ⟨command, hcommand, rfl⟩ := Option.map_eq_some_iff.1 hstep
    refine ⟨[.deleteShardsData i ((d.groups t.dst).replicas s).lastApplied], _, ?_, hone trivial,
      h.propose _ _⟩
    rw [h.kv_eq t.dst s] at hcommand
    rw [run_cons, Store.step, h.gcs, ht, Option.bind_some, hcommand]
    rfl
  | deleteShardsReply i =>
    obtain ⟨t, ht, rfl⟩ := Option.map_eq_some_iff.1 hstep
    refine ⟨[.deleteShardsReply i], _, ?_, hone trivial, h.propose _ _⟩
    rw [run_cons, Store.step, h.gcs, ht]
    rfl
  | start i s =>
    obtain ⟨p, hp, hstep⟩ := Option.bind_eq_some_iff.1 hstep
    obtain ⟨group, hgroup, rfl⟩ := Option.map_eq_some_iff.1 hstep
    refine h.group (hno p hp) rfl (fun q command heq => ?_) hgroup
    cases heq
    exact h.commands p (List.mem_of_getElem? hp)
  | group g a =>
    rw [Deployment.step] at hstep
    split at hstep
    · cases hstep
    · rename_i hstart
      obtain ⟨group, hgroup, rfl⟩ := Option.map_eq_some_iff.1 hstep
      refine h.group hno hsnap (fun s command heq => ?_) hgroup
      subst heq
      exact absurd rfl hstart

end Deploys

section OnRaft

variable {n : ℕ} {cf : MemoryConfigStateMachine} {labgob : Labgob}
  {as : List (Deployment.Action n)} {d : Deployment n}

theorem exists_deploys
    (hno : Along (Deployment.step cf labgob) Deployment.NoOverwrite (.init labgob) as)
    (hsnap : ∀ a ∈ as, a.needsSnapshot = false)
    (hrun : run (Deployment.step cf labgob) (.init labgob) as = some d) :
    ∃ bs st, run (Store.step cf) .init bs = some st ∧ Deploys (fun _ => True) d st :=
  run_induction (P := fun d => ∃ bs st, run (Store.step cf) .init bs = some st ∧
      Deploys (fun _ => True) d st)
    (fun d a d' hP hC hstep => by
      obtain ⟨bs, st, hst, h⟩ := hP
      obtain ⟨bs', st', hst', -, h'⟩ := h.step hC.1 hC.2 (fun _ _ _ _ => trivial) hstep
      exact ⟨bs ++ bs', st', run_append_of hst hst', h'⟩)
    (hno.and (along_of_forall hsnap)) hrun ⟨[], .init, rfl, .init labgob⟩

/-- **The servers of all groups are those of the store.** In every run in which no snapshot is asked
for and no request overwritten, there is a run of the store with the same configurations such that
the state of every server of every group is that of a replica of the store with as many entries
applied. -/
theorem store_on_raft
    (hno : Along (Deployment.step cf labgob) Deployment.NoOverwrite (.init labgob) as)
    (hsnap : ∀ a ∈ as, a.needsSnapshot = false)
    (hrun : run (Deployment.step cf labgob) (.init labgob) as = some d) :
    ∃ bs st, run (Store.step cf) .init bs = some st ∧ ∀ g s,
      ((d.groups g).replicas s).lastApplied ≤ (st.groups.logs g).length ∧
        d.kv g s = st.groups.replica g ((d.groups g).replicas s).lastApplied := by
  obtain ⟨bs, st, hst, h⟩ := exists_deploys hno hsnap hrun
  refine ⟨bs, st, hst, fun g s => ⟨?_, h.kv_eq g s⟩⟩
  obtain ⟨r, hfollows, hlog⟩ := h.groups g
  rw [hlog, List.length_map]
  exact (hfollows.servers s).lastApplied_le.trans (hfollows.servers s).le

/-- The controller gives all shards to group 1, and then the first five to group 2. -/
def twoGroups : MemoryConfigStateMachine :=
  (ShardCtrler.newMemoryConfigStateMachine.push (fun _ => 1) (Finmap.singleton 1 ["a"])).push
    (fun s => if s < 5 then 2 else 1)
    ((Finmap.singleton 1 ["a"] : GroupMap (List String)).insert 2 ["b"])

/-- Steps of the raft of a group. -/
def raftOf (g : Gid) (as : List (Raft.Action 3 Command)) : List (Deployment.Action 3) :=
  as.map fun a => .group g (.raft a)

/-- Server 0 leads the group. It commits its next entry with server 1, in its `k`-th request, and
applies it. -/
def commitNext (g : Gid) (k : ℕ) : List (Deployment.Action 3) := List.flatten
  [raftOf g [.msgComing 0, .task k, .deliver (4 + k), .receive (4 + k), .commitChecker 0,
      .commitChecker 0],
    [.group g (.apply 0 false)], raftOf g [.commitChecker 0, .commitChecker 0, .commitChecker 0]]

/-- Group 1 takes the first configuration, and a client's `Put`. Server 1 applies only the
configuration. -/
def servedRun : List (Deployment.Action 3) := List.flatten
  [raftOf group1 (firstElection ++ [.commitChecker 0, .commitChecker 1]),
    [.configurationAction group1 0, .start 0 0], commitNext group1 0,
    [.command group1 0 ⟨[0], [8], .put, 1, 0⟩, .start 1 0], commitNext group1 1,
    raftOf group1 [.commitChecker 1, .commitChecker 1], [.group group1 (.apply 1 false)]]

/-- Both groups take the second configuration, and group 2 pulls its shards from group 1. -/
def handoverRun : List (Deployment.Action 3) := List.flatten
  [[.configurationAction group1 0, .start 2 0], commitNext group1 2,
    raftOf group2 (firstElection ++ [.commitChecker 0]),
    [.configurationAction group2 0, .start 3 0], commitNext group2 0,
    [.configurationAction group2 0, .start 4 0], commitNext group2 1,
    [.migrationAction group2 group1 0 [0, 1, 2, 3, 4], .getShardsData 0 0, .start 5 0],
    commitNext group2 2]

theorem store_on_raft_handoverRun :
    ∃ d, run (Deployment.step twoGroups firstLabgob) (.init firstLabgob) (servedRun ++ handoverRun) =
        some d ∧
      (d.kv group2 0).content 0 [0] = some [8] ∧
      ∃ bs st, run (Store.step twoGroups) .init bs = some st ∧
        st.groups.replica group1 3 = d.kv group1 0 ∧ st.groups.replica group1 1 = d.kv group1 1 ∧
        st.groups.replica group2 3 = d.kv group2 0 := by
  obtain ⟨d, hd, hvalue, hlast₀, hlast₁, hlast₂⟩ : ∃ d,
      run (Deployment.step twoGroups firstLabgob) (.init firstLabgob) (servedRun ++ handoverRun) =
        some d ∧
      (d.kv group2 0).content 0 [0] = some [8] ∧ ((d.groups group1).replicas 0).lastApplied = 3 ∧
      ((d.groups group1).replicas 1).lastApplied = 1 ∧
      ((d.groups group2).replicas 0).lastApplied = 3 := by
    decide +kernel
  obtain ⟨bs, st, hst, hservers⟩ := store_on_raft (by decide +kernel) (by decide) hd
  refine ⟨d, hd, hvalue, bs, st, hst, ?_, ?_, ?_⟩
  · rw [(hservers group1 0).2, hlast₀]
  · rw [(hservers group1 1).2, hlast₁]
  · rw [(hservers group2 0).2, hlast₂]

/-- **One group serves a shard, or a server is behind.** If servers of two groups can both serve a
shard, they have different configurations. The group of the one with the older configuration has
then committed a later one, which this server has still to apply. -/
theorem canServe_on_raft
    (hno : Along (Deployment.step cf labgob) Deployment.NoOverwrite (.init labgob) as)
    (hsnap : ∀ a ∈ as, a.needsSnapshot = false)
    (hrun : run (Deployment.step cf labgob) (.init labgob) as = some d) {a b : Gid} {p q : Fin n}
    {s : ShardId} (hab : a ≠ b) (ha : (d.kv a p).canServe s) (hb : (d.kv b q).canServe s)
    (hle : (d.kv a p).num ≤ (d.kv b q).num) :
    (d.kv a p).num < (d.kv b q).num ∧ (Returns cf → ∃ log : List (ℤ × Command),
      (∀ i e, log[i]? = some e → ∃ r, .start r (i + 1) e.1 e.2 ∈ (d.groups a).raft.trace) ∧
      (∀ r, d.kv a r = replay a ((log.take ((d.groups a).replicas r).lastApplied).map Prod.snd)) ∧
      (d.kv a p).num < (replay a (log.map Prod.snd)).num) := by
  obtain ⟨bs, st, hst, h⟩ := exists_deploys hno hsnap hrun
  have hinv := Inv.of_run hst
  obtain ⟨hholder, -⟩ := hinv.holder_of_visited ⟨_, h.kv_eq a p⟩ ha
  obtain ⟨hholder', hgot⟩ := hinv.holder_of_visited ⟨_, h.kv_eq b q⟩ hb
  have hlt : (d.kv a p).num < (d.kv b q).num := by
    refine lt_of_le_of_ne hle fun heq => hab ?_
    rw [heq, hholder', Option.some.injEq] at hholder
    exact hholder.symm
  refine ⟨hlt, fun hret => ?_⟩
  obtain ⟨r, hfollows, hlog⟩ := h.groups a
  refine ⟨r.log, fun i e he => hfollows.sim.log_started hfollows.orderly he,
    fun r => (hfollows.servers r).state, ?_⟩
  have hpassed := (hinv.succession hret s).passed hholder' hgot hlt hholder
  rwa [Groups.group, hlog] at hpassed

/-- Server 1 of group 1 still serves the shard that group 2 has taken over. -/
theorem canServe_on_raft_handoverRun :
    ∃ d, run (Deployment.step twoGroups firstLabgob) (.init firstLabgob) (servedRun ++ handoverRun) =
        some d ∧
      (d.kv group1 1).canServe 0 ∧ (d.kv group2 0).canServe 0 ∧ (d.kv group1 1).num = 1 ∧
      ∃ log : List (ℤ × Command), 1 < (replay group1 (log.map Prod.snd)).num ∧
        ∀ r, d.kv group1 r =
          replay group1 ((log.take ((d.groups group1).replicas r).lastApplied).map Prod.snd) := by
  obtain ⟨d, hd, hserve, hserve', hnum, hle⟩ : ∃ d,
      run (Deployment.step twoGroups firstLabgob) (.init firstLabgob) (servedRun ++ handoverRun) =
        some d ∧
      (d.kv group1 1).canServe 0 ∧ (d.kv group2 0).canServe 0 ∧ (d.kv group1 1).num = 1 ∧
      (d.kv group1 1).num ≤ (d.kv group2 0).num := by
    decide +kernel
  obtain ⟨-, hbehind⟩ := canServe_on_raft (by decide +kernel) (by decide) hd (by decide) hserve
    hserve' hle
  obtain ⟨log, -, hstates, hlt⟩ := hbehind (NeverUnassigned.returns (by decide +kernel))
  exact ⟨d, hd, hserve, hserve', hnum, log, hnum ▸ hlt, hstates⟩

end OnRaft

end ShardKV

end DistSys
