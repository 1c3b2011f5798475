import DistSys.ShardKV.Ownership

/-!
# Handing over a shard

What the new owner of a shard inserts is what the old owner had when it applied the configuration
that gives the shard away, and the old owner deletes its copy only after the insertion.

Main results: `handoff_exact`, and `settled_of_accepted`: no configuration is accepted while a shard
is on its way.
-/

namespace DistSys.ShardKV

open ShardCtrler (Config ShardId MemoryConfigStateMachine)

variable {cf : MemoryConfigStateMachine} {G : Groups} {g a b : Gid} {command : Command}
  {s : ShardId} {n k : ℕ}

/-! ## Positions in a log -/

/-- The entry at position `k` takes the group to configuration `n`. -/
structure AppliedAt (G : Groups) (g : Gid) (n k : ℕ) : Prop where
  lt : k < (G.logs g).length
  before : (G.replica g k).num + 1 = n
  after : (G.replica g (k + 1)).num = n

/-- The entry at position `k` inserts the shard of configuration `n`. -/
structure InsertedAt (G : Groups) (g : Gid) (s : ShardId) (n k : ℕ) : Prop where
  entry : ∃ shardsInfo, (G.logs g)[k]? = some (.insertShards shardsInfo)
  num_before : (G.replica g k).num = n
  before : (G.replica g k).status s = .pulling
  num_after : (G.replica g (k + 1)).num = n
  after : (G.replica g (k + 1)).status s = .gcing

theorem later_replica {i j : ℕ} (h : i ≤ j) : Later (G.replica g i) (G.replica g j) := by
  have hsplit : (G.logs g).take j = (G.logs g).take i ++ ((G.logs g).take j).drop i := by
    conv_lhs => rw [← List.take_append_drop i ((G.logs g).take j)]
    rw [List.take_take, Nat.min_eq_left h]
  rw [Groups.replica, Groups.replica, hsplit]
  exact later_replay_append ..

/-- An entry adds at most one to the number of the configuration. -/
theorem num_apply_le (kv : ShardKV) (command : Command) :
    (kv.apply command).1.num ≤ kv.num + 1 := by
  rcases apply_cases kv command with ⟨next, rfl, hnext⟩ | ⟨hcur, -⟩
  · exact (num_apply_configuration hnext).le
  · rw [num, hcur]
    exact Nat.le_succ _

/-- A group has applied every configuration up to its present one. -/
theorem exists_appliedAt (hk : k ≤ (G.logs g).length) (hn : n + 1 ≤ (G.replica g k).num) :
    ∃ j < k, AppliedAt G g (n + 1) j := by
  induction k with
  | zero => cases hn
  | succ k ih =>
    by_cases hle : n + 1 ≤ (G.replica g k).num
    · obtain ⟨j, hj, happlied⟩ := ih (Nat.le_of_succ_le hk) hle
      exact ⟨j, Nat.lt_succ_of_lt hj, happlied⟩
    · -- this entry is the configuration
      have hstep := num_apply_le (G.replica g k) (G.logs g)[k]
      rw [← Groups.replica_succ hk] at hstep
      exact ⟨k, Nat.lt_succ_self k, hk, by omega, by omega⟩

theorem InsertedAt.commit (h : InsertedAt G g s n k) (g' : Gid) (command : Command) :
    InsertedAt (G.commit g' command) g s n k := by
  obtain ⟨⟨info, hentry⟩, h₁, h₂, h₃, h₄⟩ := h
  have hlt := (List.getElem?_eq_some_iff.1 hentry).1
  by_cases hg : g = g'
  · subst hg
    refine ⟨⟨info, ?_⟩, ?_, ?_, ?_, ?_⟩
    · simp only [Groups.commit, Function.update_self]
      rw [List.getElem?_append_left hlt, hentry]
    all_goals rwa [Groups.replica_commit_of_le (by omega)]
  · refine ⟨⟨info, ?_⟩, ?_, ?_, ?_, ?_⟩
    · simp only [Groups.commit, Function.update_of_ne hg]
      exact hentry
    all_goals rwa [Groups.replica_commit_of_ne hg]

/-! ## Insertions -/

/-- An entry that gets a shard that has to be pulled is an insertion. -/
theorem insertedAt_of_pulling (hp : (G.group g).status s = .pulling)
    (hnum : ((G.group g).apply command).1.num = (G.group g).num)
    (hst : ((G.group g).apply command).1.status s ≠ .pulling) :
    InsertedAt (G.commit g command) g s (G.group g).num (G.logs g).length := by
  rcases apply_cases (G.group g) command with ⟨next, rfl, hnext⟩ | ⟨-, -, hchange⟩
  · rw [num_apply_configuration hnext] at hnum
    omega
  · obtain ⟨info, data, rfl, -, -, hshard⟩ := (hchange s).insert_of_pulling hp hst
    have hbefore : (G.commit g (.insertShards info)).replica g (G.logs g).length = G.group g := by
      rw [Groups.replica_commit_of_le le_rfl, Groups.replica_of_length_le le_rfl]
    have hafter : (G.commit g (.insertShards info)).replica g ((G.logs g).length + 1) =
        ((G.group g).apply (.insertShards info)).1 := by
      rw [Groups.replica_of_length_le (by simp [Groups.commit]), Groups.group_commit_self]
    refine ⟨⟨info, ?_⟩, by rw [hbefore], by rw [hbefore, hp], by rw [hafter, hnum], ?_⟩
    · simp [Groups.commit]
    · rw [hafter, status, hshard]

/-- A group that has a shard of another owner has inserted it. -/
theorem exists_insertedAt {st : Store} {as : List Store.Action}
    (hrun : run (Store.step cf) Store.init as = some st) (ha : owner cf s n = some a)
    (hb : owner cf s (n + 1) = some b) (hab : a ≠ b)
    (hob : Obtained (n + 1) s (st.groups.group b)) : ∃ k, InsertedAt st.groups b s (n + 1) k := by
  -- induction over the commits; the entry that obtains the shard is the one to name
  have hinv : Inv cf st.groups ∧ (Obtained (n + 1) s (st.groups.group b) →
      ∃ k, InsertedAt st.groups b s (n + 1) k) := by
    refine Store.groups_induction (P := fun G => Inv cf G ∧
      (Obtained (n + 1) s (G.group b) → ∃ k, InsertedAt G b s (n + 1) k)) ?_ ?_ hrun
    · exact ⟨Inv.init cf, by rintro (h | ⟨h, -⟩) <;> cases h⟩
    · rintro G g command ⟨hI, ih⟩ ho
      refine ⟨hI.commit ho, fun hob => ?_⟩
      have keep : (∃ k, InsertedAt G b s (n + 1) k) →
          ∃ k, InsertedAt (G.commit g command) b s (n + 1) k :=
        fun ⟨k, hk⟩ => ⟨k, hk.commit g command⟩
      by_cases hbg : b = g
      · subst hbg
        rw [Groups.group_commit_self] at hob
        rcases hI.obtained_cases ho hob with hold | ⟨hm, hkeep⟩ | ⟨hm, hp, info, data, rfl, -⟩
        · exact keep (ih hold)
        · obtain rfl : (G.group b).num = n := Nat.succ.inj hm
          exact absurd (hkeep a ha hb) hab
        · have hnum : ((G.group b).apply (.insertShards info)).1.num = (G.group b).num := by
            rcases apply_cases (G.group b) (.insertShards info) with ⟨_, h, -⟩ | ⟨hcur, -⟩
            · cases h
            · rw [num, num, hcur]
          have hst : ((G.group b).apply (.insertShards info)).1.status s ≠ .pulling := by
            rcases hob with hlt | ⟨-, hst⟩
            · omega
            · exact hst
          exact ⟨_, hm ▸ insertedAt_of_pulling hp hnum hst⟩
      · rw [Groups.group_commit_of_ne hbg] at hob
        exact keep (ih hob)
  exact hinv.2 hob

/-! ## Exactness -/

/-- The content of a shard that is still `BePulling` is that of the state in which the
configuration was applied. -/
theorem content_of_bePulling {kv : ShardKV} (hv : G.Visited a kv) (hn : kv.num = n + 1)
    (hst : kv.status s = .bePulling) :
    ∃ j, AppliedAt G a (n + 1) j ∧ kv.content s = (G.replica a (j + 1)).content s := by
  obtain ⟨i, rfl⟩ := hv
  have hi : ∃ i' ≤ (G.logs a).length, G.replica a i = G.replica a i' := by
    rcases Nat.le_total i (G.logs a).length with h | h
    · exact ⟨i, h, rfl⟩
    · exact ⟨_, le_rfl, by rw [Groups.replica_of_length_le h, Groups.replica_of_length_le le_rfl]⟩
  obtain ⟨i', hle, hi'⟩ := hi
  rw [hi'] at hn hst ⊢
  obtain ⟨j, hj, happlied⟩ := exists_appliedAt hle hn.ge
  have hfrozen := (later_replica (G := G) (g := a) hj).frozen (hn.trans happlied.after.symm) s hst
  exact ⟨j, happlied, by rw [content, hfrozen]⟩

/-- What a commit makes of a group's status, for steps of the store. -/
theorem commit_of_status_ne {st st' : Store} {act : Store.Action} (hS : Store.Sound cf st)
    (hstep : Store.step cf st act = some st')
    (hne : (st'.groups.group g).status s ≠ (st.groups.group g).status s) :
    ∃ command, Origin cf st.groups g command ∧ st'.groups = st.groups.commit g command := by
  obtain ⟨-, hg | ⟨g', command, ho, hg, -⟩⟩ := Store.step_cases hS hstep
  · rw [hg] at hne
    exact absurd rfl hne
  · by_cases hgg : g = g'
    · subst hgg
      exact ⟨command, ho, hg⟩
    · rw [hg, Groups.group_commit_of_ne hgg] at hne
      exact absurd rfl hne

section Step

variable {as : List Store.Action} {act : Store.Action} {st st' : Store}

theorem content_of_insert (hcf : Returns cf)
    (hrun : run (Store.step cf) Store.init as = some st)
    (hstep : Store.step cf st act = some st') (hp : (st.groups.group b).status s = .pulling)
    (hgc : (st'.groups.group b).status s = .gcing) :
    ∃ n a j, (st.groups.group b).num = n + 1 ∧ owner cf s n = some a ∧
      AppliedAt st.groups a (n + 1) j ∧
      (st'.groups.group b).content s = (st.groups.replica a (j + 1)).content s := by
  have hI := Inv.of_run hrun
  obtain ⟨command, ho, hg⟩ := commit_of_status_ne (Store.sound_of_run hrun) hstep
    (by rw [hp, hgc]; decide : (st'.groups.group b).status s ≠ _)
  rw [hg, Groups.group_commit_self] at hgc ⊢
  rcases apply_cases (st.groups.group b) command with ⟨next, rfl, hnext⟩ | ⟨-, -, hchange⟩
  · rw [(ho.settled hnext).1 s] at hp
    cases hp
  · obtain ⟨info, data, rfl, hnum, hmem, hshard⟩ :=
      (hchange s).insert_of_pulling hp (by rw [← status, hgc]; decide)
    obtain ⟨n, a, kv, hn, ha, hv, hkv, hst, hdata, -⟩ := hI.frozen_source ho hnum hmem hp
    obtain ⟨j, hj, hcontent⟩ := content_of_bePulling hv hkv hst
    refine ⟨n, a, j, hn, ha, hj, ?_⟩
    rw [← hcontent, ← hdata, content, hshard]
    exact (hI.group b).putAll_of_pulling hcf hp data

theorem inserted_of_delete (hrun : run (Store.step cf) Store.init as = some st)
    (hstep : Store.step cf st act = some st') (hbp : (st.groups.group a).status s = .bePulling)
    (hst : (st'.groups.group a).status s ≠ .bePulling) :
    (st'.groups.group a).stateMachine s = newShard ∧
      ∃ b k, owner cf s (st.groups.group a).num = some b ∧
        InsertedAt st.groups b s (st.groups.group a).num k := by
  have hI := Inv.of_run hrun
  obtain ⟨command, ho, hg⟩ := commit_of_status_ne (Store.sound_of_run hrun) hstep
    (by rw [hbp]; exact hst : (st'.groups.group a).status s ≠ _)
  rw [hg, Groups.group_commit_self] at hst ⊢
  rcases apply_cases (st.groups.group a) command with ⟨next, rfl, hnext⟩ | ⟨-, -, hchange⟩
  · rw [(ho.settled hnext).1 s] at hbp
    cases hbp
  · obtain ⟨info, rfl, hnum, hmem, hshard⟩ := (hchange s).delete_of_bePulling hbp hst
    obtain ⟨n, b, hn, ha, hb, hab⟩ := (hI.group a).giving s hbp
    have hob := hI.obtained_of_delete ho (hnum.trans hn) hmem hb
    obtain ⟨k, hk⟩ := exists_insertedAt hrun ha hb hab hob
    exact ⟨hshard, b, k, by rw [hn, hb], by rw [hn]; exact hk⟩

/-- **Handoff exactness and safe garbage collection**, for every step of every run. When a group
inserts a shard that it waits for, the content becomes exactly that of the previous owner when that
one applied the configuration. When a group gives up its copy of a shard, the copy becomes an empty
shard, and the new owner has inserted the shard before. -/
theorem handoff_exact (hcf : NeverUnassigned cf)
    (hrun : run (Store.step cf) Store.init as = some st)
    (hstep : Store.step cf st act = some st') (s : ShardId) :
    (∀ b, (st.groups.group b).status s = .pulling → (st'.groups.group b).status s = .gcing →
      ∃ n a j, (st.groups.group b).num = n + 1 ∧ owner cf s n = some a ∧
        AppliedAt st.groups a (n + 1) j ∧
        (st'.groups.group b).content s = (st.groups.replica a (j + 1)).content s) ∧
    ∀ a, (st.groups.group a).status s = .bePulling →
      (st'.groups.group a).status s ≠ .bePulling →
      (st'.groups.group a).stateMachine s = newShard ∧
        ∃ b k, owner cf s (st.groups.group a).num = some b ∧
          InsertedAt st.groups b s (st.groups.group a).num k :=
  ⟨fun _ hp hgc => content_of_insert hcf.returns hrun hstep hp hgc,
    fun _ hbp hst => inserted_of_delete hrun hstep hbp hst⟩

end Step

/-- The insertion at group 2, and the deletion at group 1 after it. -/
theorem handoff_exact_handoffRun :
    ∃ cf st st', configsOf handoffOps = some cf ∧
      run (Store.step cf) Store.init (handoffRun.take 11) = some st ∧
      Store.step cf st (.commit 4) = some st' ∧
      (∃ n a j, (st.groups.group group2).num = n + 1 ∧ owner cf 0 n = some a ∧
        AppliedAt st.groups a (n + 1) j ∧
        (st'.groups.group group2).content 0 = (st.groups.replica a (j + 1)).content 0) ∧
      ∃ st₂ st₂', run (Store.step cf) Store.init (handoffRun.take 14) = some st₂ ∧
        Store.step cf st₂ (.commit 5) = some st₂' ∧
        (st₂'.groups.group group1).stateMachine 0 = newShard ∧
        ∃ b k, owner cf 0 (st₂.groups.group group1).num = some b ∧
          InsertedAt st₂.groups b 0 (st₂.groups.group group1).num k := by
  have h : ∃ cf, configsOf handoffOps = some cf ∧ NeverUnassigned cf ∧
      (∃ st, run (Store.step cf) Store.init (handoffRun.take 11) = some st ∧
        ∃ st', Store.step cf st (.commit 4) = some st' ∧
          (st.groups.group group2).status 0 = .pulling ∧
          (st'.groups.group group2).status 0 = .gcing) ∧
      ∃ st₂, run (Store.step cf) Store.init (handoffRun.take 14) = some st₂ ∧
        ∃ st₂', Store.step cf st₂ (.commit 5) = some st₂' ∧
          (st₂.groups.group group1).status 0 = .bePulling ∧
          (st₂'.groups.group group1).status 0 ≠ .bePulling := by
    decide +kernel
  obtain ⟨cf, hcf, hnever, ⟨st, hst, st', hst', hp, hgc⟩, st₂, hst₂, st₂', hst₂', hbp, hdel⟩ := h
  exact ⟨cf, st, st', hcf, hst, hst', (handoff_exact hnever hst hst' 0).1 group2 hp hgc,
    st₂, st₂', hst₂, hst₂', (handoff_exact hnever hst₂ hst₂' 0).2 group1 hbp hdel⟩

/-! ## Configurations -/

/-- **A group changes configuration only when it is settled.** An entry with the next configuration
is applied only in a state in which all shards are `Serving`; a configuration entry that finds a
shard in another status changes nothing. -/
theorem settled_of_accepted {as : List Store.Action} {st : Store}
    (hrun : run (Store.step cf) Store.init as = some st) {next : Config}
    (hk : (st.groups.logs g)[k]? = some (.configuration next)) :
    (next.num = (st.groups.replica g k).num + 1 → (st.groups.replica g k).Settled) ∧
      ((∃ s, (st.groups.replica g k).status s ≠ .serving) →
        st.groups.replica g (k + 1) = st.groups.replica g k) := by
  have haccepted : next.num = (st.groups.replica g k).num + 1 →
      (st.groups.replica g k).Settled := by
    refine Store.entry_induction (I := fun _ => True) (P := fun _ kv command => ∀ next,
      command = .configuration next → next.num = kv.num + 1 → kv.Settled) trivial
      (fun _ _ _ _ _ => trivial) ?_ hrun hk next rfl
    rintro G g command - ho next rfl hnum
    exact (ho.settled hnum).1
  refine ⟨haccepted, ?_⟩
  rintro ⟨s, hs⟩
  obtain ⟨hlt, hentry⟩ := List.getElem?_eq_some_iff.1 hk
  have hnum : next.num ≠ (st.groups.replica g k).num + 1 := fun hnum => hs (haccepted hnum s)
  rw [Groups.replica_succ hlt, hentry, apply, applyConfiguration, if_neg hnum]

/-- The number of the configuration in the entry. -/
def Command.configNum : Command → Option ℕ
  | .configuration config => some config.num
  | _ => none

/-- Group 1 gives away half of its shards. -/
theorem settled_of_accepted_handoffRun :
    ∃ cf st next, configsOf handoffOps = some cf ∧
      run (Store.step cf) Store.init handoffRun = some st ∧
      (st.groups.logs group1)[2]? = some (.configuration next) ∧
      next.num = (st.groups.replica group1 2).num + 1 ∧ (st.groups.replica group1 2).Settled ∧
      (st.groups.replica group1 3).status 0 = .bePulling := by
  have hrun : ((configsOf handoffOps).bind fun cf =>
      (run (Store.step cf) Store.init handoffRun).map fun st =>
        ((st.groups.logs group1)[2]?.bind Command.configNum, (st.groups.replica group1 2).num,
          (st.groups.replica group1 3).status 0)) = some (some 2, 1, .bePulling) := by
    decide +kernel
  obtain ⟨cf, hcf, hrun⟩ := Option.bind_eq_some_iff.1 hrun
  obtain ⟨st, hst, heval⟩ := Option.map_eq_some_iff.1 hrun
  simp only [Prod.mk.injEq, Option.bind_eq_some_iff] at heval
  obtain ⟨⟨command, hentry, hconfig⟩, hnum, hstatus⟩ := heval
  cases command with
  | configuration next =>
    have hnext : next.num = (st.groups.replica group1 2).num + 1 := by
      rw [hnum]
      exact Option.some.inj hconfig
    exact ⟨cf, st, next, hcf, hst, hentry, hnext,
      (settled_of_accepted hst hentry).1 hnext, hstatus⟩
  | _ => cases hconfig

end DistSys.ShardKV
