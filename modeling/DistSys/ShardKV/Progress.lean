import DistSys.ShardKV.Server

/-!
# What one log entry does to a group

`Change kv command s shard` lists what an entry can make of one shard: nothing, a write of a
client, an insertion, the end of a garbage collection, a deletion, or a new status with the next
configuration. `change_apply` says that applying an entry does one of these. Everything else about
single groups is read off it.

`Later kv kv'` says that a state follows another one in the same log, in the terms that the other
groups rely on: the number of the configuration grows; within one configuration a shard only moves
from `Pulling` to `GCing` to `Serving` or from `BePulling` to `Serving`; a shard that is `BePulling`
is frozen; and the table of the clients only forgets what newer commands replace.
-/

namespace DistSys.ShardKV

open ShardCtrler (Config ShardId)

variable {kv kv' kv'' : ShardKV} {command : Command} {args : CommandArgs} {s : ShardId}

/-! ## Writes -/

/-- What the command makes of the value of its key. -/
def CommandArgs.effect (args : CommandArgs) (old : Option Value) : Option Value :=
  match args.op with
  | .get => old
  | .put => some args.value
  | .append => some (old.getD [] ++ args.value)

def Shard.write (shard : Shard) (args : CommandArgs) : Shard :=
  { shard with kv := Function.update shard.kv args.key (args.effect (shard.kv args.key)) }

theorem applyLogToStateMachine_fst :
    (kv.applyLogToStateMachine args s).1 = kv.setShard s ((kv.stateMachine s).write args) := by
  unfold applyLogToStateMachine Shard.write CommandArgs.effect
  rcases args.op with _ | _ | _
  · simp [setShard]
  · rfl
  · rfl

/-- A `Get` returns the value of its key. -/
theorem applyLogToStateMachine_get (hop : args.op = .get) :
    (kv.applyLogToStateMachine args s).2 =
      ⟨((kv.stateMachine s).get args.key).2, ((kv.stateMachine s).get args.key).1⟩ := by
  simp [applyLogToStateMachine, hop]

theorem applyOperation_of_executes (h : kv.Executes args) :
    kv.applyOperation args =
      (((kv.applyLogToStateMachine args (key2shard args.key)).1.remember args
        (kv.applyLogToStateMachine args (key2shard args.key)).2),
        (kv.applyLogToStateMachine args (key2shard args.key)).2) := by
  rw [applyOperation, if_neg (not_not_intro h.1), if_neg h.2]

theorem applyOperation_of_not_executes (h : ¬ kv.Executes args) :
    (kv.applyOperation args).1 = kv := by
  rw [applyOperation]
  split
  · rfl
  · split
    · rfl
    · rename_i hserve hdup
      exact absurd ⟨not_not.1 hserve, hdup⟩ h

@[simp] theorem setShard_self (shard : Shard) : (kv.setShard s shard).stateMachine s = shard :=
  Function.update_self ..

theorem setShard_of_ne {s' : ShardId} (h : s ≠ s') (shard : Shard) :
    (kv.setShard s' shard).stateMachine s = kv.stateMachine s :=
  Function.update_of_ne h ..

@[simp] theorem remember_stateMachine (reply : CommandReply) :
    (kv.remember args reply).stateMachine = kv.stateMachine := by
  unfold remember; split <;> rfl

@[simp] theorem remember_currentConfig (reply : CommandReply) :
    (kv.remember args reply).currentConfig = kv.currentConfig := by
  unfold remember; split <;> rfl

@[simp] theorem remember_lastConfig (reply : CommandReply) :
    (kv.remember args reply).lastConfig = kv.lastConfig := by
  unfold remember; split <;> rfl

@[simp] theorem remember_gid (reply : CommandReply) : (kv.remember args reply).gid = kv.gid := by
  unfold remember; split <;> rfl

/-! ## The two loops -/

theorem insertLoop_cases (shards : List (ShardId × (Key → Option Value)))
    (stateMachine : ShardId → Shard) (s : ShardId) :
    insertLoop shards stateMachine s = stateMachine s ∨
      ∃ data, (s, data) ∈ shards ∧ (stateMachine s).status = .pulling ∧
        insertLoop shards stateMachine s =
          { (stateMachine s).putAll data with status := .gcing } := by
  induction shards generalizing stateMachine with
  | nil => exact .inl rfl
  | cons p rest ih =>
    obtain ⟨shardID, data⟩ := p
    by_cases hp : (stateMachine shardID).status = .pulling
    · rw [insertLoop, if_pos hp]
      by_cases hs : s = shardID
      · -- the shard is `GCing` from here on, so the rest of the loop leaves it alone
        subst hs
        rcases ih (Function.update stateMachine s
          { (stateMachine s).putAll data with status := .gcing }) with h | ⟨_, _, h, -⟩
        · rw [Function.update_self] at h
          exact .inr ⟨data, List.mem_cons_self, hp, h⟩
        · rw [Function.update_self] at h
          cases h
      · rcases ih (Function.update stateMachine shardID
          { (stateMachine shardID).putAll data with status := .gcing }) with h | ⟨d, hd, h⟩
        · exact .inl (by rw [h, Function.update_of_ne hs])
        · rw [Function.update_of_ne hs] at h
          exact .inr ⟨d, List.mem_cons_of_mem _ hd, h⟩
    · rw [insertLoop, if_neg hp]
      exact .inl rfl

theorem deleteLoop_cases (shardIDs : List ShardId) (stateMachine : ShardId → Shard)
    (s : ShardId) :
    deleteLoop shardIDs stateMachine s = stateMachine s ∨
      s ∈ shardIDs ∧
        ((stateMachine s).status = .gcing ∧
            deleteLoop shardIDs stateMachine s = { stateMachine s with status := .serving } ∨
          (stateMachine s).status = .bePulling ∧
            deleteLoop shardIDs stateMachine s = newShard) := by
  induction shardIDs generalizing stateMachine with
  | nil => exact .inl rfl
  | cons shardID rest ih =>
    -- one round changes `shardID` to a shard that is `Serving`, which later rounds leave alone
    have round : ∀ shard : Shard, shard.status = .serving →
        deleteLoop rest (Function.update stateMachine shardID shard) s =
            (if s = shardID then shard else stateMachine s) ∨
          s ≠ shardID ∧ s ∈ rest ∧
            ((stateMachine s).status = .gcing ∧
                deleteLoop rest (Function.update stateMachine shardID shard) s =
                  { stateMachine s with status := .serving } ∨
              (stateMachine s).status = .bePulling ∧
                deleteLoop rest (Function.update stateMachine shardID shard) s = newShard) := by
      intro shard hshard
      have h := ih (Function.update stateMachine shardID shard)
      by_cases hs : s = shardID
      · subst hs
        rw [Function.update_self, hshard] at h
        simpa using h
      · rw [Function.update_of_ne hs] at h
        simpa [hs] using h
    by_cases hg : (stateMachine shardID).status = .gcing
    · rw [deleteLoop, if_pos hg]
      rcases round { stateMachine shardID with status := .serving } rfl with h | ⟨_, hmem, h⟩
      · split at h
        · rename_i hs
          exact .inr ⟨hs ▸ List.mem_cons_self, .inl ⟨hs ▸ hg, hs ▸ h⟩⟩
        · exact .inl h
      · exact .inr ⟨List.mem_cons_of_mem _ hmem, h⟩
    · by_cases hb : (stateMachine shardID).status = .bePulling
      · rw [deleteLoop, if_neg hg, if_pos hb]
        rcases round newShard rfl with h | ⟨_, hmem, h⟩
        · split at h
          · rename_i hs
            exact .inr ⟨hs ▸ List.mem_cons_self, .inr ⟨hs ▸ hb, h⟩⟩
          · exact .inl h
        · exact .inr ⟨List.mem_cons_of_mem _ hmem, h⟩
      · rw [deleteLoop, if_neg hg, if_neg hb]
        exact .inl rfl

/-! ## One entry -/

/-- What an entry that does not change the configuration can make of a shard. -/
inductive Change (kv : ShardKV) : Command → ShardId → Shard → Prop
  | same {command : Command} {s : ShardId} : Change kv command s (kv.stateMachine s)
  | write {args : CommandArgs} (h : kv.Executes args) :
      Change kv (.operation args) (key2shard args.key)
        ((kv.stateMachine (key2shard args.key)).write args)
  | insert {shardsInfo : ShardOperationReply} {s : ShardId} {data : Key → Option Value}
      (hnum : shardsInfo.configNum = kv.num) (hmem : (s, data) ∈ shardsInfo.shards)
      (hs : kv.status s = .pulling) :
      Change kv (.insertShards shardsInfo) s
        { (kv.stateMachine s).putAll data with status := .gcing }
  | collect {shardsInfo : ShardOperationArgs} {s : ShardId}
      (hnum : shardsInfo.configNum = kv.num) (hmem : s ∈ shardsInfo.shardIDs)
      (hs : kv.status s = .gcing) :
      Change kv (.deleteShards shardsInfo) s { kv.stateMachine s with status := .serving }
  | delete {shardsInfo : ShardOperationArgs} {s : ShardId}
      (hnum : shardsInfo.configNum = kv.num) (hmem : s ∈ shardsInfo.shardIDs)
      (hs : kv.status s = .bePulling) :
      Change kv (.deleteShards shardsInfo) s newShard

theorem change_operation (kv : ShardKV) (args : CommandArgs) (s : ShardId) :
    Change kv (.operation args) s ((kv.applyOperation args).1.stateMachine s) := by
  by_cases h : kv.Executes args
  · rw [applyOperation_of_executes h, applyLogToStateMachine_fst, remember_stateMachine]
    by_cases hs : s = key2shard args.key
    · subst hs
      rw [setShard_self]
      exact .write h
    · rw [setShard_of_ne hs]
      exact .same
  · rw [applyOperation_of_not_executes h]
    exact .same

theorem change_insertShards (kv : ShardKV) (shardsInfo : ShardOperationReply) (s : ShardId) :
    Change kv (.insertShards shardsInfo) s ((kv.applyInsertShards shardsInfo).1.stateMachine s) := by
  by_cases hnum : shardsInfo.configNum = kv.num
  · simp only [applyInsertShards, if_pos hnum]
    rcases insertLoop_cases shardsInfo.shards kv.stateMachine s with h | ⟨data, hmem, hs, h⟩
    · exact h ▸ .same
    · exact h ▸ .insert hnum hmem hs
  · rw [applyInsertShards, if_neg hnum]
    exact .same

theorem change_deleteShards (kv : ShardKV) (shardsInfo : ShardOperationArgs) (s : ShardId) :
    Change kv (.deleteShards shardsInfo) s ((kv.applyDeleteShards shardsInfo).1.stateMachine s) := by
  by_cases hnum : shardsInfo.configNum = kv.num
  · simp only [applyDeleteShards, if_pos hnum]
    rcases deleteLoop_cases shardsInfo.shardIDs kv.stateMachine s with
      h | ⟨hmem, ⟨hs, h⟩ | ⟨hs, h⟩⟩
    · exact h ▸ .same
    · exact h ▸ .collect hnum hmem hs
    · exact h ▸ .delete hnum hmem hs
  · rw [applyDeleteShards, if_neg hnum]
    exact .same

/-- An entry is the next configuration, or it keeps the configurations and makes one `Change` of
each shard. -/
theorem apply_cases (kv : ShardKV) (command : Command) :
    (∃ next, command = .configuration next ∧ next.num = kv.num + 1) ∨
      (kv.apply command).1.currentConfig = kv.currentConfig ∧
        (kv.apply command).1.lastConfig = kv.lastConfig ∧
        ∀ s, Change kv command s ((kv.apply command).1.stateMachine s) := by
  cases command with
  | operation args =>
    refine .inr ⟨?_, ?_, change_operation kv args⟩
    all_goals
      by_cases h : kv.Executes args
      · simp only [apply, applyOperation_of_executes h, applyLogToStateMachine_fst,
          remember_currentConfig, remember_lastConfig, setShard]
      · simp only [apply, applyOperation_of_not_executes h]
  | configuration next =>
    by_cases h : next.num = kv.num + 1
    · exact .inl ⟨next, rfl, h⟩
    · simp only [apply, applyConfiguration, if_neg h]
      exact .inr ⟨trivial, trivial, fun s => .same⟩
  | insertShards shardsInfo =>
    refine .inr ⟨?_, ?_, change_insertShards kv shardsInfo⟩
    all_goals
      simp only [apply, applyInsertShards]
      split <;> rfl
  | deleteShards shardsInfo =>
    refine .inr ⟨?_, ?_, change_deleteShards kv shardsInfo⟩
    all_goals
      simp only [apply, applyDeleteShards]
      split <;> rfl
  | emptyShards => exact .inr ⟨rfl, rfl, fun s => .same⟩

theorem apply_configuration {next : Config} (h : next.num = kv.num + 1) :
    (kv.apply (.configuration next)).1 =
      { kv.updateShardStatus next with
        lastConfig := kv.currentConfig
        currentConfig := next } := by
  simp only [apply, applyConfiguration, if_pos h]

theorem num_apply_configuration {next : Config} (h : next.num = kv.num + 1) :
    (kv.apply (.configuration next)).1.num = kv.num + 1 := by
  rw [apply_configuration h]
  exact h

theorem status_apply_configuration {next : Config} (h : next.num = kv.num + 1) (s : ShardId) :
    (kv.apply (.configuration next)).1.status s =
      nextStatus kv.gid (kv.currentConfig.shards s) (next.shards s) (kv.status s) := by
  rw [apply_configuration h]
  rfl

theorem content_apply_configuration {next : Config} (h : next.num = kv.num + 1) (s : ShardId) :
    (kv.apply (.configuration next)).1.content s = kv.content s := by
  rw [apply_configuration h]
  rfl

@[simp] theorem apply_gid (kv : ShardKV) (command : Command) :
    (kv.apply command).1.gid = kv.gid := by
  cases command with
  | operation args =>
    by_cases h : kv.Executes args
    · simp only [apply, applyOperation_of_executes h, applyLogToStateMachine_fst, remember_gid,
        setShard]
    · simp only [apply, applyOperation_of_not_executes h]
  | configuration next =>
    simp only [apply, applyConfiguration]
    split <;> rfl
  | insertShards shardsInfo =>
    simp only [apply, applyInsertShards]
    split <;> rfl
  | deleteShards shardsInfo =>
    simp only [apply, applyDeleteShards]
    split <;> rfl
  | emptyShards => rfl

/-! ## The table of the clients -/

theorem isDuplicate_update {table : OperationTable} {client : ℤ} {context : OperationContext}
    (hnew : ∀ id, isDuplicate table client id → id ≤ context.maxAppliedCommandId) {c id : ℤ}
    (h : isDuplicate table c id) :
    isDuplicate (Function.update table client (some context)) c id := by
  by_cases hc : c = client
  · subst hc
    simpa [isDuplicate] using hnew id h
  · simpa [isDuplicate, Function.update_of_ne hc] using h

theorem isDuplicate_mono {table : OperationTable} {c id id' : ℤ} (h : isDuplicate table c id)
    (hle : id' ≤ id) : isDuplicate table c id' := by
  simp only [isDuplicate, Option.any_eq_true, decide_eq_true_eq] at h ⊢
  obtain ⟨context, hc, hid⟩ := h
  exact ⟨context, hc, hle.trans hid⟩

/-- The merged table knows what either of the two knows, and nothing else. -/
theorem isDuplicate_mergeOperations {table new : OperationTable} {c id : ℤ} :
    isDuplicate (mergeOperations table new) c id ↔
      isDuplicate table c id ∨ isDuplicate new c id := by
  unfold isDuplicate mergeOperations
  rcases hn : new c with _ | context
  · simp
  · rcases ht : table c with _ | old
    · simp
    · by_cases hlt : old.maxAppliedCommandId < context.maxAppliedCommandId
      · simp [hlt]
        omega
      · simp [hlt]
        omega

theorem isDuplicateRequest_remember {reply : CommandReply} {c id : ℤ}
    (hdup : ¬ (args.op ≠ .get ∧ kv.isDuplicateRequest args.clientId args.commandId))
    (h : kv.isDuplicateRequest c id) : (kv.remember args reply).isDuplicateRequest c id := by
  unfold remember
  split
  · rename_i hop
    refine isDuplicate_update (fun id' hid' => ?_) h
    -- an older command in the table would make this one a duplicate
    by_contra hlt
    exact hdup ⟨hop, isDuplicate_mono hid' (not_le.1 hlt).le⟩
  · exact h

/-- The table never forgets a command. -/
theorem isDuplicateRequest_apply {c id : ℤ} (h : kv.isDuplicateRequest c id) :
    (kv.apply command).1.isDuplicateRequest c id := by
  cases command with
  | operation args =>
    by_cases hex : kv.Executes args
    · simp only [apply, applyOperation_of_executes hex, applyLogToStateMachine_fst]
      exact isDuplicateRequest_remember hex.2 h
    · simpa only [apply, applyOperation_of_not_executes hex] using h
  | configuration next =>
    simp only [apply, applyConfiguration]
    split <;> exact h
  | insertShards shardsInfo =>
    simp only [apply, applyInsertShards]
    split
    · exact isDuplicate_mergeOperations.2 (.inl h)
    · exact h
  | deleteShards shardsInfo =>
    simp only [apply, applyDeleteShards]
    split <;> exact h
  | emptyShards => exact h

/-- What the table learns from an entry: the command of the entry, or the table of a pull reply. -/
theorem isDuplicateRequest_of_apply {c id : ℤ}
    (h : (kv.apply command).1.isDuplicateRequest c id) :
    kv.isDuplicateRequest c id ∨
      (∃ args, command = .operation args ∧ kv.Executes args ∧ args.op ≠ .get ∧
        c = args.clientId ∧ id ≤ args.commandId) ∨
      ∃ shardsInfo, command = .insertShards shardsInfo ∧
        isDuplicate shardsInfo.lastOperations c id := by
  cases command with
  | operation args =>
    by_cases hex : kv.Executes args
    · simp only [apply, applyOperation_of_executes hex, applyLogToStateMachine_fst] at h
      unfold remember at h
      split at h
      · rename_i hop
        by_cases hc : c = args.clientId
        · subst hc
          refine .inr (.inl ⟨args, rfl, hex, hop, rfl, ?_⟩)
          simpa [isDuplicateRequest, isDuplicate] using h
        · refine .inl ?_
          simpa [isDuplicateRequest, isDuplicate, Function.update_of_ne hc, setShard] using h
      · exact .inl h
    · simp only [apply, applyOperation_of_not_executes hex] at h
      exact .inl h
  | configuration next =>
    simp only [apply, applyConfiguration] at h
    split at h <;> exact .inl h
  | insertShards shardsInfo =>
    simp only [apply, applyInsertShards] at h
    split at h
    · rcases isDuplicate_mergeOperations.1 h with h | h
      · exact .inl h
      · exact .inr (.inr ⟨shardsInfo, rfl, h⟩)
    · exact .inl h
  | deleteShards shardsInfo =>
    simp only [apply, applyDeleteShards] at h
    split at h <;> exact .inl h
  | emptyShards => exact .inl h

/-! ## Later states of a log -/

/-- The status of a shard only moves towards `Serving` within one configuration. -/
def ShardStatus.Le (a b : ShardStatus) : Prop :=
  a = b ∨ b = .serving ∨ a = .pulling ∧ b = .gcing

theorem ShardStatus.Le.trans {a b c : ShardStatus} (h : a.Le b) (h' : b.Le c) : a.Le c := by
  cases a <;> cases b <;> cases c <;> simp_all [ShardStatus.Le]

theorem Change.status_le {shard : Shard} (h : Change kv command s shard) :
    (kv.status s).Le shard.status := by
  cases h with
  | same => exact .inl rfl
  | write hex => exact .inl rfl
  | insert hnum hmem hs => exact .inr (.inr ⟨hs, rfl⟩)
  | collect hnum hmem hs => exact .inr (.inl rfl)
  | delete hnum hmem hs => exact .inr (.inl rfl)

/-- A shard that is still `BePulling` has not been touched. -/
theorem Change.frozen {shard : Shard} (h : Change kv command s shard)
    (hs : shard.status = .bePulling) : shard = kv.stateMachine s := by
  cases h with
  | same => rfl
  | write hex =>
    -- a group executes no write on a shard that is `BePulling`
    have hstatus : kv.status (key2shard _) = .bePulling := hs
    obtain ⟨-, h | h⟩ := hex.1 <;> rw [hstatus] at h <;> cases h
  | insert | collect | delete => cases hs

/-- A shard stops being `Pulling` only by an insertion. -/
theorem Change.insert_of_pulling {shard : Shard} (h : Change kv command s shard)
    (hp : kv.status s = .pulling) (hs : shard.status ≠ .pulling) :
    ∃ shardsInfo data, command = .insertShards shardsInfo ∧ shardsInfo.configNum = kv.num ∧
      (s, data) ∈ shardsInfo.shards ∧
      shard = { (kv.stateMachine s).putAll data with status := .gcing } := by
  cases h with
  | same => exact absurd hp hs
  | write => exact absurd hp hs
  | insert hnum hmem => exact ⟨_, _, rfl, hnum, hmem, rfl⟩
  | collect _ _ hg => rw [hp] at hg; cases hg
  | delete _ _ hb => rw [hp] at hb; cases hb

/-- A shard stops being `BePulling` only by a deletion. -/
theorem Change.delete_of_bePulling {shard : Shard} (h : Change kv command s shard)
    (hb : kv.status s = .bePulling) (hs : shard.status ≠ .bePulling) :
    ∃ shardsInfo, command = .deleteShards shardsInfo ∧ shardsInfo.configNum = kv.num ∧
      s ∈ shardsInfo.shardIDs ∧ shard = newShard := by
  cases h with
  | same => exact absurd hb hs
  | write => exact absurd hb hs
  | insert _ _ hp => rw [hb] at hp; cases hp
  | collect _ _ hg => rw [hb] at hg; cases hg
  | delete hnum hmem => exact ⟨_, rfl, hnum, hmem, rfl⟩

/-- `kv'` follows `kv` in the log of the group. -/
structure Later (kv kv' : ShardKV) : Prop where
  num_le : kv.num ≤ kv'.num
  config : kv'.num = kv.num → kv'.currentConfig = kv.currentConfig
  status : kv'.num = kv.num → ∀ s, (kv.status s).Le (kv'.status s)
  frozen : kv'.num = kv.num → ∀ s, kv'.status s = .bePulling →
    kv'.stateMachine s = kv.stateMachine s
  table : ∀ c id, kv.isDuplicateRequest c id → kv'.isDuplicateRequest c id

namespace Later

theorem refl (kv : ShardKV) : Later kv kv :=
  ⟨le_rfl, fun _ => rfl, fun _ _ => .inl rfl, fun _ _ _ => rfl, fun _ _ h => h⟩

theorem trans (h : Later kv kv') (h' : Later kv' kv'') : Later kv kv'' := by
  have hnum : kv''.num = kv.num → kv'.num = kv.num ∧ kv''.num = kv'.num := by
    have h₁ := h.num_le
    have h₂ := h'.num_le
    omega
  constructor
  · exact h.num_le.trans h'.num_le
  · intro he
    rw [h'.config (hnum he).2, h.config (hnum he).1]
  · intro he s
    exact (h.status (hnum he).1 s).trans (h'.status (hnum he).2 s)
  · intro he s hs
    have hs' := h'.frozen (hnum he).2 s hs
    rw [hs']
    exact h.frozen (hnum he).1 s (by rw [ShardKV.status, ← hs']; exact hs)
  · exact fun c id hid => h'.table c id (h.table c id hid)

theorem apply (kv : ShardKV) (command : Command) : Later kv (kv.apply command).1 := by
  rcases apply_cases kv command with ⟨next, rfl, hnext⟩ | ⟨hcur, -, hchange⟩
  · -- the number grows, so only the table matters
    have hnum := num_apply_configuration hnext
    have hne : (kv.apply (.configuration next)).1.num ≠ kv.num := by omega
    exact ⟨by omega, fun h => absurd h hne, fun h => absurd h hne, fun h => absurd h hne,
      fun c id => isDuplicateRequest_apply⟩
  · exact ⟨by rw [num, num, hcur], fun _ => hcur, fun _ s => (hchange s).status_le,
      fun _ s hs => (hchange s).frozen hs, fun c id => isDuplicateRequest_apply⟩

end Later

/-- Replaying more entries leads to a later state. -/
theorem later_replay_append (gid : ℤ) (log rest : List Command) :
    Later (replay gid log) (replay gid (log ++ rest)) := by
  induction rest using List.reverseRecOn with
  | nil => simpa using Later.refl _
  | append_singleton rest command ih =>
    rw [← List.append_assoc, replay_concat]
    exact ih.trans (Later.apply _ command)

/-- The group has the shard of configuration `n`: it is past `n`, or it no longer waits for the
data. -/
def Obtained (n : ℕ) (s : ShardId) (kv : ShardKV) : Prop :=
  n < kv.num ∨ kv.num = n ∧ kv.status s ≠ .pulling

/-- The group has given up its copy of the shard at configuration `n`. -/
def Released (n : ℕ) (s : ShardId) (kv : ShardKV) : Prop :=
  n < kv.num ∨ kv.num = n ∧ kv.status s ≠ .bePulling

/-- The group was ready to leave configuration `n`. -/
def Quiet (n : ℕ) (kv : ShardKV) : Prop :=
  n < kv.num ∨ kv.num = n ∧ kv.Settled

/-- A fact about the statuses at `n` that later statuses keep stays true of later states. -/
theorem Later.persist (h : Later kv kv') {n : ℕ} {P : ShardKV → Prop}
    (hP : kv'.num = kv.num → P kv → P kv') (hn : n < kv.num ∨ kv.num = n ∧ P kv) :
    n < kv'.num ∨ kv'.num = n ∧ P kv' := by
  have hle := h.num_le
  rcases hn with hn | ⟨hn, hp⟩
  · exact .inl (by omega)
  · rcases Nat.lt_or_eq_of_le hle with hlt | heq
    · exact .inl (by omega)
    · exact .inr ⟨by omega, hP heq.symm hp⟩

theorem Obtained.later {n : ℕ} (hn : Obtained n s kv) (h : Later kv kv') : Obtained n s kv' := by
  refine h.persist (P := fun kv => kv.status s ≠ .pulling) (fun he hs hp => hs ?_) hn
  rcases h.status he s with hle | hle | ⟨-, hle⟩
  · rw [hle, hp]
  · rw [hp] at hle; cases hle
  · rw [hp] at hle; cases hle

theorem Released.later {n : ℕ} (hn : Released n s kv) (h : Later kv kv') : Released n s kv' := by
  refine h.persist (P := fun kv => kv.status s ≠ .bePulling) (fun he hs hb => hs ?_) hn
  rw [status, ← h.frozen he s hb]
  exact hb

theorem Quiet.later {n : ℕ} (hn : Quiet n kv) (h : Later kv kv') : Quiet n kv' := by
  refine h.persist (P := Settled) (fun he hs s => ?_) hn
  rcases h.status he s with hle | hle | ⟨hle, -⟩
  · rw [← hle, hs s]
  · exact hle
  · rw [hs s] at hle; cases hle

end DistSys.ShardKV
