import DistSys.Lib.Runs
import DistSys.ShardKV.Progress

/-!
# The sharded store

All groups together. Each group is its committed log; a replica of the group is the replay of some
prefix of it. The monitors and handlers of any replica run in the state of such a prefix, and what
they pass to raft may be committed at any later time, more than once or never.

* `Groups` — the logs, and the operations the groups have executed, in order.
* `Store` — the groups together with the calls between them and the proposals under way.
* `Store.step` — the monitors, the handlers, and the commits. The configurations `cf` are all those
  that the controller makes in the run; a monitor that asks for one that is not there yet is
  answered with an older one, which it does not propose.
* `Origin` — where the entries of the logs come from. By `groups_induction` this is all that a proof
  about the groups has to know.
-/

namespace DistSys

open ShardCtrler (Config ShardId MemoryConfigStateMachine)

namespace ShardKV

/-- A group. Group 0 is the invalid group, which has no servers. -/
abbrev Gid := { g : ℤ // g ≠ 0 }

/-- An operation that a group has executed, with its reply. -/
structure Executed where
  gid : Gid
  args : CommandArgs
  reply : CommandReply
  deriving DecidableEq

/-! ## The groups -/

/-- The committed logs, and the executed operations of all groups in the order of execution. -/
structure Groups where
  logs : Gid → List Command
  executed : List Executed

namespace Groups

def init : Groups := ⟨fun _ => [], []⟩

variable (G : Groups)

/-- The state of a replica that has applied `k` entries. -/
def replica (g : Gid) (k : ℕ) : ShardKV := replay g ((G.logs g).take k)

/-- The state after the whole log. -/
def group (g : Gid) : ShardKV := replay g (G.logs g)

/-- The operation that the entry executes in this state, if it does. -/
def execution (g : Gid) (kv : ShardKV) : Command → List Executed
  | .operation args => if kv.Executes args then [⟨g, args, (kv.applyOperation args).2⟩] else []
  | _ => []

/-- The group commits the entry and applies it. -/
def commit (g : Gid) (command : Command) : Groups where
  logs := Function.update G.logs g (G.logs g ++ [command])
  executed := G.executed ++ execution g (G.group g) command

/-- The group has been in this state. -/
def Visited (g : Gid) (kv : ShardKV) : Prop := ∃ k, kv = G.replica g k

end Groups

/-! ## Calls and proposals -/

/-- A call of `migrationAction` or `gcAction` from the group `src` to the group `dst`. -/
structure Task where
  src : Gid
  dst : Gid
  args : ShardOperationArgs

structure Store where
  groups : Groups
  pulls : List Task
  gcs : List Task
  proposals : List (Gid × Command)

namespace Store

def init : Store := ⟨Groups.init, [], [], []⟩

inductive Action where
  /-- A command of a client is committed. -/
  | operation (g : Gid) (args : CommandArgs)
  /-- The entry of `checkEntryInCurrentTermAction` is committed. -/
  | emptyShards (g : Gid)
  /-- The monitors, on a replica that has applied `k` entries. -/
  | configurationAction (g : Gid) (k : ℕ)
  | migrationAction (g dst : Gid) (k : ℕ) (shardIDs : List ShardId)
  | gcAction (g dst : Gid) (k : ℕ) (shardIDs : List ShardId)
  /-- A replica of the other group handles the `i`-th call. -/
  | getShardsData (i k : ℕ)
  | deleteShardsData (i k : ℕ)
  /-- The `i`-th delete call returns `OK`. -/
  | deleteShardsReply (i : ℕ)
  /-- The `i`-th proposal is committed. -/
  | commit (i : ℕ)

variable (st : Store)

def commit (g : Gid) (command : Command) : Store :=
  { st with groups := st.groups.commit g command }

def propose (g : Gid) (command : Command) : Store :=
  { st with proposals := st.proposals ++ [(g, command)] }

/-- The call for the shards with the status whose last owner was `dst`. The order of `shardIDs` is
that in which the monitor met them. -/
def task (status : ShardStatus) (g dst : Gid) (k : ℕ) (shardIDs : List ShardId) : Option Task :=
  let kv := st.groups.replica g k
  if shardIDs ≠ [] ∧ shardIDs.Perm (kv.getShardIDsByStatus status dst) then
    some ⟨g, dst, ⟨kv.num, shardIDs⟩⟩
  else none

def step (cf : MemoryConfigStateMachine) (st : Store) : Action → Option Store
  | .operation g args => some (st.commit g (.operation args))
  | .emptyShards g => some (st.commit g .emptyShards)
  | .configurationAction g k =>
    ((st.groups.replica g k).configurationAction cf).map (st.propose g)
  | .migrationAction g dst k shardIDs =>
    (st.task .pulling g dst k shardIDs).map fun t => { st with pulls := st.pulls ++ [t] }
  | .gcAction g dst k shardIDs =>
    (st.task .gcing g dst k shardIDs).map fun t => { st with gcs := st.gcs ++ [t] }
  | .getShardsData i k =>
    st.pulls[i]?.bind fun t =>
      let reply := (st.groups.replica t.dst k).getShardsData t.args
      if reply.err = .ok then some (st.propose t.src (.insertShards reply)) else none
  | .deleteShardsData i k =>
    st.gcs[i]?.bind fun t =>
      ((st.groups.replica t.dst k).deleteShardsData t.args).map (st.propose t.dst)
  -- The reply may be that of another command (the handler waits on a channel of its index), so
  -- nothing is assumed about what the other group has done.
  | .deleteShardsReply i => st.gcs[i]?.map fun t => st.propose t.src (.deleteShards t.args)
  | .commit i => st.proposals[i]?.map fun p => st.commit p.1 p.2

end Store

/-! ## Visited states -/

namespace Groups

variable {G : Groups} {g g' : Gid} {kv : ShardKV} {command : Command}

theorem visited_group (G : Groups) (g : Gid) : G.Visited g (G.group g) :=
  ⟨(G.logs g).length, by rw [replica, List.take_length, group]⟩

theorem Visited.later (h : G.Visited g kv) : Later kv (G.group g) := by
  obtain ⟨k, rfl⟩ := h
  have h := later_replay_append g ((G.logs g).take k) ((G.logs g).drop k)
  rwa [List.take_append_drop] at h

@[simp] theorem group_commit_self (G : Groups) (g : Gid) (command : Command) :
    (G.commit g command).group g = ((G.group g).apply command).1 := by
  simp [group, commit]

theorem group_commit_of_ne (h : g' ≠ g) : (G.commit g command).group g' = G.group g' := by
  simp [group, commit, Function.update_of_ne h]

theorem replica_commit_of_ne (h : g' ≠ g) (k : ℕ) :
    (G.commit g command).replica g' k = G.replica g' k := by
  simp [replica, commit, Function.update_of_ne h]

theorem replica_commit_of_le {k : ℕ} (h : k ≤ (G.logs g).length) :
    (G.commit g command).replica g k = G.replica g k := by
  simp [replica, commit, List.take_append_of_le_length h]

theorem replica_of_length_le {k : ℕ} (h : (G.logs g).length ≤ k) :
    G.replica g k = G.group g := by
  rw [replica, List.take_of_length_le h, group]

theorem replica_succ {k : ℕ} (h : k < (G.logs g).length) :
    G.replica g (k + 1) = ((G.replica g k).apply (G.logs g)[k]).1 := by
  rw [replica, replica, List.take_succ_eq_append_getElem h, replay_concat]

/-- A commit adds one state to those its group has visited. -/
theorem visited_commit :
    (G.commit g command).Visited g' kv ↔
      G.Visited g' kv ∨ g' = g ∧ kv = ((G.group g).apply command).1 := by
  by_cases hg : g' = g
  · subst hg
    constructor
    · rintro ⟨k, rfl⟩
      rcases Nat.lt_or_ge (G.logs g').length k with hk | hk
      · refine .inr ⟨rfl, ?_⟩
        rw [replica_of_length_le (by simpa [commit, Nat.succ_le_iff] using hk), group_commit_self]
      · exact .inl ⟨k, replica_commit_of_le hk⟩
    · rintro (⟨k, rfl⟩ | ⟨-, rfl⟩)
      · rcases Nat.lt_or_ge (G.logs g').length k with hk | hk
        · refine ⟨(G.logs g').length, ?_⟩
          rw [replica_of_length_le hk.le, replica_commit_of_le le_rfl, replica_of_length_le le_rfl]
        · exact ⟨k, (replica_commit_of_le hk).symm⟩
      · exact group_commit_self G g' command ▸ visited_group _ g'
  · constructor
    · rintro ⟨k, rfl⟩
      exact .inl ⟨k, replica_commit_of_ne hg k⟩
    · rintro (⟨k, rfl⟩ | ⟨h, -⟩)
      · exact ⟨k, (replica_commit_of_ne hg k).symm⟩
      · exact absurd h hg

theorem Visited.commit (h : G.Visited g' kv) : (G.commit g command).Visited g' kv :=
  visited_commit.2 (.inl h)

/-- The group of a commit moves to a later state, the others stay. -/
theorem later_commit (G : Groups) (g : Gid) (command : Command) (g' : Gid) :
    Later (G.group g') ((G.commit g command).group g') :=
  (visited_group G g').commit.later

end Groups

/-! ## Where the entries come from -/

/-- The caller was in the state `kv` and asked for the shards of that status. -/
structure Task.From (t : Task) (status : ShardStatus) (kv : ShardKV) : Prop where
  num : t.args.configNum = kv.num
  nodup : t.args.shardIDs.Nodup
  complete : ∀ s, kv.status s = status → kv.lastConfig.shards s = t.dst → s ∈ t.args.shardIDs
  status : ∀ s ∈ t.args.shardIDs, kv.status s = status
  last : ∀ s ∈ t.args.shardIDs, kv.lastConfig.shards s = t.dst

/-- Why an entry can stand in the log of a group: each was proposed in a state that some group has
been in. -/
inductive Origin (cf : MemoryConfigStateMachine) (G : Groups) : Gid → Command → Prop
  | operation (g : Gid) (args : CommandArgs) : Origin cf G g (.operation args)
  | emptyShards (g : Gid) : Origin cf G g .emptyShards
  | configuration {g : Gid} {kv : ShardKV} {config : Config} (hv : G.Visited g kv)
      (hs : kv.Settled) (hc : cf.configs[kv.num + 1]? = some config) :
      Origin cf G g (.configuration config)
  | insertShards {t : Task} {kv kv' : ShardKV} (hv : G.Visited t.src kv) (ht : t.From .pulling kv)
      (hv' : G.Visited t.dst kv') (hn : t.args.configNum ≤ kv'.num) :
      Origin cf G t.src (.insertShards (kv'.getShardsData t.args))
  | deleteShards {t : Task} {kv : ShardKV} {g : Gid} (hv : G.Visited t.src kv)
      (ht : t.From .gcing kv) : Origin cf G g (.deleteShards t.args)

variable {cf : MemoryConfigStateMachine} {G G' : Groups} {g : Gid} {command : Command}

theorem Origin.mono (hG : ∀ g kv, G.Visited g kv → G'.Visited g kv) (h : Origin cf G g command) :
    Origin cf G' g command := by
  cases h with
  | operation _ args => exact .operation g args
  | emptyShards => exact .emptyShards g
  | configuration hv hs hc => exact .configuration (hG _ _ hv) hs hc
  | insertShards hv ht hv' hn => exact .insertShards (hG _ _ hv) ht (hG _ _ hv') hn
  | deleteShards hv ht => exact .deleteShards (hG _ _ hv) ht

namespace Store

/-- Every call and every proposal of the store has its origin. -/
structure Sound (cf : MemoryConfigStateMachine) (st : Store) : Prop where
  pulls : ∀ t ∈ st.pulls, ∃ kv, st.groups.Visited t.src kv ∧ t.From .pulling kv
  gcs : ∀ t ∈ st.gcs, ∃ kv, st.groups.Visited t.src kv ∧ t.From .gcing kv
  proposals : ∀ p ∈ st.proposals, Origin cf st.groups p.1 p.2
  noOperation : ∀ p ∈ st.proposals, ∀ args, p.2 ≠ .operation args

variable {st st' : Store} {a : Action}

theorem sound_init (cf : MemoryConfigStateMachine) : Sound cf init :=
  ⟨by simp [init], by simp [init], by simp [init], by simp [init]⟩

theorem Sound.commit (h : Sound cf st) (g : Gid) (command : Command) :
    Sound cf (st.commit g command) := by
  constructor
  · intro t ht
    obtain ⟨kv, hv, hfrom⟩ := h.pulls t ht
    exact ⟨kv, hv.commit, hfrom⟩
  · intro t ht
    obtain ⟨kv, hv, hfrom⟩ := h.gcs t ht
    exact ⟨kv, hv.commit, hfrom⟩
  · intro p hp
    exact (h.proposals p hp).mono fun _ _ => Groups.Visited.commit
  · exact h.noOperation

theorem Sound.propose (h : Sound cf st) (ho : Origin cf st.groups g command)
    (hno : ∀ args, command ≠ .operation args) : Sound cf (st.propose g command) := by
  refine ⟨h.pulls, h.gcs, fun p hp => ?_, fun p hp => ?_⟩
  all_goals rcases List.mem_append.1 hp with hp | hp
  · exact h.proposals p hp
  · rw [List.mem_singleton.1 hp]
    exact ho
  · exact h.noOperation p hp
  · rw [List.mem_singleton.1 hp]
    exact hno

theorem task_from {status : ShardStatus} {dst : Gid} {k : ℕ} {shardIDs : List ShardId} {t : Task}
    (h : st.task status g dst k shardIDs = some t) :
    st.groups.Visited t.src (st.groups.replica g k) ∧ t.From status (st.groups.replica g k) := by
  unfold task at h
  simp only at h
  split at h
  · rename_i hperm
    cases h
    have hmem : ∀ s, s ∈ shardIDs ↔ (st.groups.replica g k).status s = status ∧
        (st.groups.replica g k).lastConfig.shards s = dst := by
      intro s
      rw [hperm.2.mem_iff, getShardIDsByStatus, List.mem_filter]
      simp [List.mem_finRange, dst.2]
    exact ⟨⟨k, rfl⟩, rfl, hperm.2.nodup_iff.2 ((List.nodup_finRange _).filter _),
      fun s h₁ h₂ => (hmem s).2 ⟨h₁, h₂⟩, fun s hs => ((hmem s).1 hs).1,
      fun s hs => ((hmem s).1 hs).2⟩
  · cases h

/-- **What a step can do**: it commits an entry that has its origin, or leaves the groups alone.
Operations of clients are committed by their own action only. -/
theorem step_cases (h : Sound cf st) (hstep : step cf st a = some st') :
    Sound cf st' ∧
      (st'.groups = st.groups ∨
        ∃ g command, Origin cf st.groups g command ∧ st'.groups = st.groups.commit g command ∧
          ∀ args, command = .operation args → a = .operation g args) := by
  cases a with
  | operation g args =>
    cases hstep
    refine ⟨h.commit g _, .inr ⟨g, _, .operation g args, rfl, ?_⟩⟩
    rintro args' ⟨⟩
    rfl
  | emptyShards g =>
    cases hstep
    refine ⟨h.commit g _, .inr ⟨g, _, .emptyShards g, rfl, ?_⟩⟩
    rintro args' ⟨⟩
  | configurationAction g k =>
    obtain ⟨command, hc, rfl⟩ := Option.map_eq_some_iff.1 hstep
    unfold configurationAction at hc
    split at hc
    · rename_i hs
      simp only at hc
      split at hc
      · rename_i hn
        cases hc
        have ho := Origin.configuration ⟨k, rfl⟩ hs (cf.getElem?_of_query hn)
        exact ⟨h.propose ho fun _ => nofun, .inl rfl⟩
      · cases hc
    · cases hc
  | migrationAction g dst k shardIDs =>
    obtain ⟨t, ht, rfl⟩ := Option.map_eq_some_iff.1 hstep
    refine ⟨⟨fun t' ht' => ?_, h.gcs, h.proposals, h.noOperation⟩, .inl rfl⟩
    rcases List.mem_append.1 ht' with ht' | ht'
    · exact h.pulls t' ht'
    · rw [List.mem_singleton.1 ht']
      exact ⟨_, task_from ht⟩
  | gcAction g dst k shardIDs =>
    obtain ⟨t, ht, rfl⟩ := Option.map_eq_some_iff.1 hstep
    refine ⟨⟨h.pulls, fun t' ht' => ?_, h.proposals, h.noOperation⟩, .inl rfl⟩
    rcases List.mem_append.1 ht' with ht' | ht'
    · exact h.gcs t' ht'
    · rw [List.mem_singleton.1 ht']
      exact ⟨_, task_from ht⟩
  | getShardsData i k =>
    obtain ⟨t, ht, hr⟩ := Option.bind_eq_some_iff.1 hstep
    simp only at hr
    split at hr
    · rename_i hok
      cases hr
      obtain ⟨kv, hv, hfrom⟩ := h.pulls t (List.mem_of_getElem? ht)
      have hn : t.args.configNum ≤ (st.groups.replica t.dst k).num := by
        by_contra hlt
        rw [getShardsData, if_pos (not_le.1 hlt)] at hok
        cases hok
      exact ⟨h.propose (.insertShards hv hfrom ⟨k, rfl⟩ hn) fun _ => nofun, .inl rfl⟩
    · cases hr
  | deleteShardsData i k =>
    obtain ⟨t, ht, hd⟩ := Option.bind_eq_some_iff.1 hstep
    obtain ⟨command, hc, rfl⟩ := Option.map_eq_some_iff.1 hd
    obtain ⟨kv, hv, hfrom⟩ := h.gcs t (List.mem_of_getElem? ht)
    unfold deleteShardsData at hc
    split at hc
    · cases hc
    · cases hc
      exact ⟨h.propose (.deleteShards hv hfrom) fun _ => nofun, .inl rfl⟩
  | deleteShardsReply i =>
    obtain ⟨t, ht, rfl⟩ := Option.map_eq_some_iff.1 hstep
    obtain ⟨kv, hv, hfrom⟩ := h.gcs t (List.mem_of_getElem? ht)
    exact ⟨h.propose (.deleteShards hv hfrom) fun _ => nofun, .inl rfl⟩
  | commit i =>
    obtain ⟨p, hp, rfl⟩ := Option.map_eq_some_iff.1 hstep
    have hmem := List.mem_of_getElem? hp
    exact ⟨h.commit p.1 p.2, .inr ⟨p.1, p.2, h.proposals p hmem, rfl,
      fun args he => absurd he (h.noOperation p hmem args)⟩⟩

theorem sound_of_run {as : List Action} (h : run (step cf) init as = some st) : Sound cf st :=
  run_invariant (fun _ _ _ hs hstep => (step_cases hs hstep).1) h (sound_init cf)

/-- **Invariants of the groups.** What every commit of an entry with an origin preserves holds in
every state of the store. -/
theorem groups_induction {P : Groups → Prop} (hinit : P Groups.init)
    (hcommit : ∀ G g command, P G → Origin cf G g command → P (G.commit g command))
    {as : List Action} (h : run (step cf) init as = some st) : P st.groups := by
  have hrun : Sound cf st ∧ P st.groups := by
    refine run_invariant (P := fun st => Sound cf st ∧ P st.groups) ?_ h ⟨sound_init cf, hinit⟩
    rintro st a st' ⟨hs, hp⟩ hstep
    obtain ⟨hs', hg | ⟨g, command, ho, hg, -⟩⟩ := step_cases hs hstep
    · exact ⟨hs', hg ▸ hp⟩
    · exact ⟨hs', hg ▸ hcommit _ g command hp ho⟩
  exact hrun.2

/-- **Entries of the logs.** What holds of every entry and the state it is committed in holds of
every entry and the state it is applied to. -/
theorem entry_induction {I : Groups → Prop} {P : Gid → ShardKV → Command → Prop}
    (hinit : I Groups.init)
    (hcommit : ∀ G g command, I G → Origin cf G g command → I (G.commit g command))
    (hentry : ∀ G g command, I G → Origin cf G g command → P g (G.group g) command)
    {as : List Action} (h : run (step cf) init as = some st) {g : Gid} {k : ℕ} {command : Command}
    (hk : (st.groups.logs g)[k]? = some command) : P g (st.groups.replica g k) command := by
  have hrun : I st.groups ∧ ∀ g k command, (st.groups.logs g)[k]? = some command →
      P g (st.groups.replica g k) command := by
    refine groups_induction (P := fun G => I G ∧ ∀ g k command,
      (G.logs g)[k]? = some command → P g (G.replica g k) command) ?_ ?_ h
    · exact ⟨hinit, fun g k command hk => by simp [Groups.init] at hk⟩
    · rintro G g' command' ⟨hI, ih⟩ ho
      refine ⟨hcommit G g' command' hI ho, fun g k command hk => ?_⟩
      by_cases hg : g = g'
      · subst hg
        simp only [Groups.commit, Function.update_self] at hk
        rcases Nat.lt_or_ge k (G.logs g).length with hlt | hge
        · rw [List.getElem?_append_left hlt] at hk
          rw [Groups.replica_commit_of_le hlt.le]
          exact ih g k command hk
        · -- the new entry, applied to the state of the whole log
          obtain ⟨hlen, hcommand⟩ := List.getElem?_eq_some_iff.1 hk
          obtain rfl : k = (G.logs g).length := by
            rw [List.length_append, List.length_singleton] at hlen
            omega
          rw [List.getElem_concat_length rfl] at hcommand
          rw [Groups.replica_commit_of_le le_rfl, Groups.replica_of_length_le le_rfl, ← hcommand]
          exact hentry G g command' hI ho
      · simp only [Groups.commit, Function.update_of_ne hg] at hk
        rw [Groups.replica_commit_of_ne hg]
        exact ih g k command hk
  exact hrun.2 g k command hk

end Store

end ShardKV

end DistSys
