import DistSys.Lib.Pairs
import DistSys.ShardKV.Ownership

/-!
# Replicas of a shard group agree

`applyInsertShards` ranges over two maps, in an order that Go chooses anew on every replica, and
leaves the loop over the shards at the first one that is not `Pulling`; `applyDeleteShards` leaves
its loop in the same way. `Applies` says what a replica can make of an entry with some order, and
`Replays` what state it can be in after a log.

All replicas are in the same state because the shards that an entry names move together.
*Companions* are shards with the same owner in the last and the same owner in the current
configuration. They get their status together when the configuration is applied, the monitors ask
for all of them or for none (`Task.From.batch`), and so an entry finds them all in one status
(`Uniform`).

Main result: `shards_agree`.
-/

namespace DistSys.ShardKV

open ShardCtrler (Config ShardId MemoryConfigStateMachine)

/-! ## The loops in any order -/

/-- The loop of `applyInsertShards` over `LastOperations`, in the order of the list. -/
def operationsLoop : List (ℤ × OperationContext) → OperationTable → OperationTable
  | [], lastOperations => lastOperations
  | (clientId, operationContext) :: rest, lastOperations =>
    if (lastOperations clientId).all
        (·.maxAppliedCommandId < operationContext.maxAppliedCommandId) then
      operationsLoop rest (Function.update lastOperations clientId (some operationContext))
    else operationsLoop rest lastOperations

/-- The context that is kept of two. -/
def laterContext (old : Option OperationContext) (new : OperationContext) :
    Option OperationContext :=
  if old.all (·.maxAppliedCommandId < new.maxAppliedCommandId) then some new else old

theorem operationsLoop_eq_foldl (operations : List (ℤ × OperationContext))
    (lastOperations : OperationTable) :
    operationsLoop operations lastOperations = operations.foldl
      (fun table p => Function.update table p.1 (laterContext (table p.1) p.2)) lastOperations := by
  induction operations generalizing lastOperations with
  | nil => rfl
  | cons p rest ih =>
    rw [operationsLoop, List.foldl_cons, ← ih, laterContext]
    split
    · rfl
    · rw [Function.update_eq_self]

/-- In whatever order, the two tables are merged. -/
theorem operationsLoop_eq {operations : List (ℤ × OperationContext)} {new : OperationTable}
    (h : Enumerates operations new) (lastOperations : OperationTable) :
    operationsLoop operations lastOperations = mergeOperations lastOperations new := by
  funext clientId
  rw [operationsLoop_eq_foldl, h.foldl_update laterContext, mergeOperations]
  cases new clientId <;> rfl

section Loops

variable {shards shards' : List (ShardId × (Key → Option Value))} {shardIDs shardIDs' : List ShardId}
  {stateMachine : ShardId → Shard} {status : ShardStatus} {s : ShardId}

/-- A shard after its data has been inserted. -/
def Shard.inserted (shard : Shard) (data : Key → Option Value) : Shard :=
  { shard.putAll data with status := .gcing }

theorem insertLoop_of_not_pulling (h : ∀ p ∈ shards, (stateMachine p.1).status = status)
    (hstatus : status ≠ .pulling) : insertLoop shards stateMachine = stateMachine := by
  cases shards with
  | nil => rfl
  | cons p rest => exact if_neg (by rw [h p List.mem_cons_self]; exact hstatus)

/-- The loop runs through when all shards are `Pulling`. -/
theorem insertLoop_of_pulling (hnodup : (shards.map Prod.fst).Nodup)
    (h : ∀ p ∈ shards, (stateMachine p.1).status = .pulling) :
    insertLoop shards stateMachine =
      shards.foldl (fun sm p => Function.update sm p.1 ((sm p.1).inserted p.2)) stateMachine := by
  induction shards generalizing stateMachine with
  | nil => rfl
  | cons p rest ih =>
    rw [List.map_cons, List.nodup_cons] at hnodup
    rw [insertLoop, if_pos (h p List.mem_cons_self), List.foldl_cons]
    refine ih hnodup.2 fun q hq => ?_
    have hne : q.1 ≠ p.1 := fun he => hnodup.1 (he ▸ List.mem_map_of_mem hq)
    rw [Function.update_of_ne hne]
    exact h q (List.mem_cons_of_mem p hq)

theorem insertLoop_status (hnodup : (shards.map Prod.fst).Nodup)
    (h : ∀ p ∈ shards, (stateMachine p.1).status = .pulling) :
    (insertLoop shards stateMachine s).status =
      if s ∈ shards.map Prod.fst then .gcing else (stateMachine s).status := by
  rw [insertLoop_of_pulling hnodup h]
  split
  · rename_i hs
    obtain ⟨⟨_, data⟩, hmem, rfl⟩ := List.mem_map.1 hs
    rw [foldl_update_of_mem Shard.inserted hnodup hmem]
    rfl
  · rename_i hs
    rw [foldl_update_of_not_mem Shard.inserted hs]

theorem insertLoop_perm (hnodup : (shards.map Prod.fst).Nodup)
    (h : ∀ p ∈ shards, (stateMachine p.1).status = status) (hperm : shards'.Perm shards) :
    insertLoop shards' stateMachine = insertLoop shards stateMachine := by
  have h' : ∀ p ∈ shards', (stateMachine p.1).status = status := fun p hp => h p (hperm.mem_iff.1 hp)
  by_cases hstatus : status = .pulling
  · subst hstatus
    have hnodup' : (shards'.map Prod.fst).Nodup := (hperm.map Prod.fst).nodup_iff.2 hnodup
    rw [insertLoop_of_pulling hnodup h, insertLoop_of_pulling hnodup' h']
    funext s
    by_cases hs : s ∈ shards.map Prod.fst
    · obtain ⟨⟨_, data⟩, hmem, rfl⟩ := List.mem_map.1 hs
      rw [foldl_update_of_mem Shard.inserted hnodup hmem,
        foldl_update_of_mem Shard.inserted hnodup' (hperm.mem_iff.2 hmem)]
    · rw [foldl_update_of_not_mem Shard.inserted hs,
        foldl_update_of_not_mem Shard.inserted fun hs' => hs ((hperm.map Prod.fst).mem_iff.1 hs')]
  · rw [insertLoop_of_not_pulling h hstatus, insertLoop_of_not_pulling h' hstatus]

/-- A shard after a deletion that expects its status. -/
def Shard.deleted (shard : Shard) : Shard :=
  if shard.status = .gcing then { shard with status := .serving } else newShard

theorem Shard.deleted_status (shard : Shard) : shard.deleted.status = .serving := by
  unfold deleted
  split <;> rfl

theorem deleteLoop_of_unexpected (h : ∀ s ∈ shardIDs, (stateMachine s).status = status)
    (hstatus : status ≠ .gcing) (hstatus' : status ≠ .bePulling) :
    deleteLoop shardIDs stateMachine = stateMachine := by
  cases shardIDs with
  | nil => rfl
  | cons s rest =>
    rw [deleteLoop, h s List.mem_cons_self, if_neg hstatus, if_neg hstatus']

/-- The loop runs through when all shards are in an expected status. -/
theorem deleteLoop_of_expected (hnodup : shardIDs.Nodup)
    (h : ∀ s ∈ shardIDs, (stateMachine s).status = .gcing ∨ (stateMachine s).status = .bePulling) :
    deleteLoop shardIDs stateMachine s =
      if s ∈ shardIDs then (stateMachine s).deleted else stateMachine s := by
  induction shardIDs generalizing stateMachine with
  | nil => rfl
  | cons shardID rest ih =>
    rw [List.nodup_cons] at hnodup
    have hround : deleteLoop (shardID :: rest) stateMachine =
        deleteLoop rest (Function.update stateMachine shardID (stateMachine shardID).deleted) := by
      rw [deleteLoop, Shard.deleted]
      rcases h shardID List.mem_cons_self with hst | hst <;> simp [hst]
    have hrest : ∀ s ∈ rest, Function.update stateMachine shardID (stateMachine shardID).deleted s =
        stateMachine s := by
      rintro s hs
      rw [Function.update_of_ne]
      rintro rfl
      exact hnodup.1 hs
    rw [hround, ih hnodup.2 fun s hs => by
      rw [hrest s hs]
      exact h s (List.mem_cons_of_mem shardID hs)]
    by_cases hs : s = shardID
    · subst hs
      rw [if_neg hnodup.1, Function.update_self, if_pos List.mem_cons_self]
    · rw [Function.update_of_ne hs]
      simp [hs]

theorem deleteLoop_status (hnodup : shardIDs.Nodup)
    (h : ∀ s ∈ shardIDs, (stateMachine s).status = .gcing ∨ (stateMachine s).status = .bePulling) :
    (deleteLoop shardIDs stateMachine s).status =
      if s ∈ shardIDs then .serving else (stateMachine s).status := by
  rw [deleteLoop_of_expected hnodup h]
  split
  · exact Shard.deleted_status _
  · rfl

theorem deleteLoop_perm (hnodup : shardIDs.Nodup)
    (h : ∀ s ∈ shardIDs, (stateMachine s).status = status) (hperm : shardIDs'.Perm shardIDs) :
    deleteLoop shardIDs' stateMachine = deleteLoop shardIDs stateMachine := by
  have h' : ∀ s ∈ shardIDs', (stateMachine s).status = status := fun s hs => h s (hperm.mem_iff.1 hs)
  by_cases hstatus : status = .gcing ∨ status = .bePulling
  · funext s
    rw [deleteLoop_of_expected hnodup fun s hs => by rwa [h s hs],
      deleteLoop_of_expected (hperm.nodup_iff.2 hnodup) fun s hs => by rwa [h' s hs]]
    simp only [hperm.mem_iff]
  · rw [not_or] at hstatus
    rw [deleteLoop_of_unexpected h hstatus.1 hstatus.2,
      deleteLoop_of_unexpected h' hstatus.1 hstatus.2]

end Loops

/-! ## Replicas -/

/-- The shards that an entry names. -/
def Command.shardIDs : Command → List ShardId
  | .insertShards shardsInfo => shardsInfo.shards.map Prod.fst
  | .deleteShards shardsInfo => shardsInfo.shardIDs
  | _ => []

/-- The entry inserts or deletes shards at the current configuration. -/
def Accepts (kv : ShardKV) : Command → Prop
  | .insertShards shardsInfo => shardsInfo.configNum = kv.num
  | .deleteShards shardsInfo => shardsInfo.configNum = kv.num
  | _ => False

instance (kv : ShardKV) : (command : Command) → Decidable (kv.Accepts command)
  | .insertShards shardsInfo => inferInstanceAs (Decidable (shardsInfo.configNum = kv.num))
  | .deleteShards shardsInfo => inferInstanceAs (Decidable (shardsInfo.configNum = kv.num))
  | .operation _ | .configuration _ | .emptyShards => isFalse id

/-- What a replica can make of an entry. A deletion may process its shards in any order, too. -/
inductive Applies (kv : ShardKV) : Command → ShardKV → Prop
  | insertShards {shardsInfo : ShardOperationReply}
      {shards : List (ShardId × (Key → Option Value))} {operations : List (ℤ × OperationContext)}
      (hnum : shardsInfo.configNum = kv.num) (hshards : shards.Perm shardsInfo.shards)
      (hoperations : Enumerates operations shardsInfo.lastOperations) :
      Applies kv (.insertShards shardsInfo)
        { kv with
          stateMachine := insertLoop shards kv.stateMachine
          lastOperations := operationsLoop operations kv.lastOperations }
  | deleteShards {shardsInfo : ShardOperationArgs} {shardIDs : List ShardId}
      (hnum : shardsInfo.configNum = kv.num) (hshardIDs : shardIDs.Perm shardsInfo.shardIDs) :
      Applies kv (.deleteShards shardsInfo)
        { kv with stateMachine := deleteLoop shardIDs kv.stateMachine }
  | other {command : Command} (h : ¬ kv.Accepts command) : Applies kv command (kv.apply command).1

/-- The states that a replica can be in after the entries of a log. -/
inductive Replays (gid : ℤ) : List Command → ShardKV → Prop
  | nil : Replays gid [] (new gid)
  | concat {log : List Command} {command : Command} {kv kv' : ShardKV} (h : Replays gid log kv)
      (happly : Applies kv command kv') : Replays gid (log ++ [command]) kv'

/-! ## Companions -/

section Companions

variable {cf : MemoryConfigStateMachine} {g g' : Gid} {kv kv' : ShardKV} {command : Command}
  {shardIDs : List ShardId}

/-- The shards have the same owner in the last and the same owner in the current configuration. -/
def Companions (kv : ShardKV) (s s' : ShardId) : Prop :=
  kv.lastConfig.shards s = kv.lastConfig.shards s' ∧
    kv.currentConfig.shards s = kv.currentConfig.shards s'

/-- Companions have the same status. -/
def Uniform (kv : ShardKV) : Prop := ∀ s s', kv.Companions s s' → kv.status s = kv.status s'

/-- The list has all companions of each of its shards, and no others. -/
structure Batch (kv : ShardKV) (shardIDs : List ShardId) : Prop where
  nodup : shardIDs.Nodup
  companions : ∀ s ∈ shardIDs, ∀ s', s' ∈ shardIDs ↔ kv.Companions s s'

theorem Batch.nil (kv : ShardKV) : Batch kv [] := ⟨List.nodup_nil, nofun⟩

theorem Batch.of_config (h : Batch kv shardIDs) (hlast : kv'.lastConfig = kv.lastConfig)
    (hcur : kv'.currentConfig = kv.currentConfig) : Batch kv' shardIDs := by
  refine ⟨h.nodup, fun s hs s' => ?_⟩
  rw [h.companions s hs, Companions, Companions, hlast, hcur]

theorem Batch.status_eq (h : Batch kv shardIDs) (hu : Uniform kv) :
    ∃ status, ∀ s ∈ shardIDs, kv.status s = status := by
  rcases List.eq_nil_or_concat shardIDs with rfl | ⟨rest, s, rfl⟩
  · exact ⟨.serving, nofun⟩
  · have hs : s ∈ rest.concat s := by simp
    exact ⟨kv.status s, fun s' hs' => (hu s s' ((h.companions s hs s').1 hs')).symm⟩

/-- What an entry does to a batch keeps companions together. -/
theorem Uniform.of_batch (hu : Uniform kv) (h : Batch kv shardIDs)
    (hlast : kv'.lastConfig = kv.lastConfig) (hcur : kv'.currentConfig = kv.currentConfig)
    {status : ShardStatus} (hin : ∀ s ∈ shardIDs, kv'.status s = status)
    (hout : ∀ s, s ∉ shardIDs → kv'.status s = kv.status s) : Uniform kv' := by
  intro s s' hc
  rw [Companions, hlast, hcur] at hc
  by_cases hs : s ∈ shardIDs
  · rw [hin s hs, hin s' ((h.companions s hs s').2 hc)]
  · have hs' : s' ∉ shardIDs := fun hs' => hs ((h.companions s' hs' s).2 ⟨hc.1.symm, hc.2.symm⟩)
    rw [hout s hs, hout s' hs', hu s s' hc]

/-- The monitors ask for whole batches. -/
theorem Task.From.batch {t : Task} {status : ShardStatus} (ht : t.From status kv)
    (hl : Local cf t.src kv) (hu : Uniform kv) (hst : status = .pulling ∨ status = .gcing) :
    Batch kv t.args.shardIDs := by
  have hcur : ∀ s ∈ t.args.shardIDs, kv.currentConfig.shards s = t.src := by
    intro s hs
    obtain ⟨n, a, hn, -, ho, -⟩ := hl.taking s (by rwa [ht.status s hs])
    rw [← hn, hl.owner_current, toGid_eq_some] at ho
    exact ho
  refine ⟨ht.nodup, fun s hs s' => ⟨fun hs' => ?_, fun hc => ?_⟩⟩
  · exact ⟨(ht.last s hs).trans (ht.last s' hs').symm, (hcur s hs).trans (hcur s' hs').symm⟩
  · exact ht.complete s' ((hu s s' hc).symm.trans (ht.status s hs)) (hc.1.symm.trans (ht.last s hs))

/-- Groups at the same configuration have the same configurations. -/
theorem Local.config_eq (h : Local cf g kv) (h' : Local cf g' kv') {n : ℕ} (hn : kv.num = n + 1)
    (hn' : kv'.num = n + 1) :
    kv'.lastConfig = kv.lastConfig ∧ kv'.currentConfig = kv.currentConfig := by
  have hlast := h.last n hn
  have hcur := h.current
  rw [h'.last n hn', Option.some.injEq] at hlast
  rw [hn, ← hn', h'.current, Option.some.injEq] at hcur
  exact ⟨hlast, hcur⟩

/-- A batch of one group is a batch for every group at the same configuration. -/
theorem Task.From.batch_of_num {t : Task} {status : ShardStatus} (ht : t.From status kv)
    (hl : Local cf t.src kv) (hu : Uniform kv) (hst : status = .pulling ∨ status = .gcing)
    (hl' : Local cf g kv') (hnum : t.args.configNum = kv'.num) : Batch kv' t.args.shardIDs := by
  rcases hids : t.args.shardIDs with _ | ⟨s, rest⟩
  · exact .nil kv'
  · obtain ⟨n, a, hn, -⟩ := hl.taking s (by rwa [ht.status s (hids ▸ List.mem_cons_self)])
    obtain ⟨hlast, hcur⟩ := hl.config_eq hl' hn (by rw [← hnum, ht.num, hn])
    exact hids ▸ (ht.batch hl hu hst).of_config hlast hcur

theorem apply_insertShards {shardsInfo : ShardOperationReply}
    (hnum : shardsInfo.configNum = kv.num) :
    (kv.apply (.insertShards shardsInfo)).1 = { kv with
      stateMachine := insertLoop shardsInfo.shards kv.stateMachine
      lastOperations := mergeOperations kv.lastOperations shardsInfo.lastOperations } := by
  rw [ShardKV.apply, applyInsertShards, if_pos hnum]

theorem apply_deleteShards {shardsInfo : ShardOperationArgs}
    (hnum : shardsInfo.configNum = kv.num) :
    (kv.apply (.deleteShards shardsInfo)).1 =
      { kv with stateMachine := deleteLoop shardsInfo.shardIDs kv.stateMachine } := by
  rw [ShardKV.apply, applyDeleteShards, if_pos hnum]

theorem Uniform.insertShards (hu : Uniform kv) {shardsInfo : ShardOperationReply}
    (hb : Batch kv (shardsInfo.shards.map Prod.fst)) :
    Uniform { kv with
      stateMachine := insertLoop shardsInfo.shards kv.stateMachine
      lastOperations := mergeOperations kv.lastOperations shardsInfo.lastOperations } := by
  obtain ⟨status, hstatus⟩ := hb.status_eq hu
  have hall : ∀ p ∈ shardsInfo.shards, (kv.stateMachine p.1).status = status := fun p hp =>
    hstatus p.1 (List.mem_map_of_mem hp)
  by_cases hp : status = .pulling
  · subst hp
    exact hu.of_batch hb rfl rfl (fun s hs => (insertLoop_status hb.nodup hall).trans (if_pos hs))
      fun s hs => (insertLoop_status hb.nodup hall).trans (if_neg hs)
  · rw [insertLoop_of_not_pulling hall hp]
    exact hu

theorem Uniform.deleteShards (hu : Uniform kv) (hb : Batch kv shardIDs) :
    Uniform { kv with stateMachine := deleteLoop shardIDs kv.stateMachine } := by
  obtain ⟨status, hstatus⟩ := hb.status_eq hu
  by_cases hexp : status = .gcing ∨ status = .bePulling
  · have hall : ∀ s ∈ shardIDs, (kv.stateMachine s).status = .gcing ∨
        (kv.stateMachine s).status = .bePulling := fun s hs => by
      rwa [show (kv.stateMachine s).status = status from hstatus s hs]
    exact hu.of_batch hb rfl rfl (fun s hs => (deleteLoop_status hb.nodup hall).trans (if_pos hs))
      fun s hs => (deleteLoop_status hb.nodup hall).trans (if_neg hs)
  · rw [not_or] at hexp
    rw [deleteLoop_of_unexpected hstatus hexp.1 hexp.2]
    exact hu

theorem Uniform.apply (hu : Uniform kv)
    (hb : kv.Accepts command → Batch kv command.shardIDs)
    (hc : ∀ next, command = .configuration next → next.num = kv.num + 1 → kv.Settled) :
    Uniform (kv.apply command).1 := by
  cases command with
  | operation args =>
    obtain ⟨_, h, -⟩ | ⟨hcur, hlast, hchange⟩ := apply_cases kv (.operation args)
    · cases h
    · have hnone : ∀ s ∈ ([] : List ShardId),
          (kv.apply (.operation args)).1.status s = .serving := nofun
      refine hu.of_batch (.nil kv) hlast hcur hnone fun s _ => ?_
      have hs := hchange s
      rw [ShardKV.status]
      generalize ((kv.apply (.operation args)).1.stateMachine s) = shard at hs ⊢
      cases hs <;> rfl
  | configuration next =>
    by_cases hnext : next.num = kv.num + 1
    · -- all shards were `Serving`, so the new statuses depend on the owners only
      have hs := hc next rfl hnext
      intro s s' hcomp
      rw [apply_configuration hnext] at hcomp
      rw [status_apply_configuration hnext, status_apply_configuration hnext, hs s, hs s',
        show kv.currentConfig.shards s = _ from hcomp.1, show next.shards s = _ from hcomp.2]
    · rw [ShardKV.apply, applyConfiguration, if_neg hnext]
      exact hu
  | insertShards shardsInfo =>
    rw [ShardKV.apply, applyInsertShards]
    split
    · exact hu.insertShards (hb ‹_›)
    · exact hu
  | deleteShards shardsInfo =>
    rw [ShardKV.apply, applyDeleteShards]
    split
    · exact hu.deleteShards (hb ‹_›)
    · exact hu
  | emptyShards => exact hu

end Companions

/-! ## The groups -/

section Groups

variable {cf : MemoryConfigStateMachine} {G : Groups} {g : Gid} {kv kv' : ShardKV}
  {command : Command}

/-- The table has an entry for finitely many clients. -/
def FiniteTable (table : OperationTable) : Prop := {clientId | table clientId ≠ none}.Finite

theorem FiniteTable.update {table : OperationTable} (h : FiniteTable table) (clientId : ℤ)
    (context : Option OperationContext) : FiniteTable (Function.update table clientId context) := by
  refine (h.insert clientId).subset fun c hc => ?_
  by_cases heq : c = clientId
  · exact .inl heq
  · have hc' : Function.update table clientId context c ≠ none := hc
    rw [Function.update_of_ne heq] at hc'
    exact .inr hc'

theorem FiniteTable.mergeOperations {table table' : OperationTable} (h : FiniteTable table)
    (h' : FiniteTable table') : FiniteTable (mergeOperations table table') := by
  refine (h.union h').subset fun c hc => ?_
  have hc' : ShardKV.mergeOperations table table' c ≠ none := hc
  by_cases hnone : table' c = none
  · rw [ShardKV.mergeOperations, hnone] at hc'
    exact .inl hc'
  · exact .inr hnone

theorem FiniteTable.apply (h : FiniteTable kv.lastOperations)
    (hinfo : ∀ shardsInfo, command = .insertShards shardsInfo →
      FiniteTable shardsInfo.lastOperations) :
    FiniteTable (kv.apply command).1.lastOperations := by
  cases command with
  | operation args =>
    by_cases hex : kv.Executes args
    · rw [ShardKV.apply, applyOperation_of_executes hex, applyLogToStateMachine_fst, remember]
      split
      · exact h.update args.clientId _
      · exact h
    · rw [ShardKV.apply, applyOperation_of_not_executes hex]
      exact h
  | configuration next =>
    rw [ShardKV.apply, applyConfiguration]
    split <;> exact h
  | insertShards shardsInfo =>
    rw [ShardKV.apply, applyInsertShards]
    split
    · exact h.mergeOperations (hinfo shardsInfo rfl)
    · exact h
  | deleteShards shardsInfo =>
    rw [ShardKV.apply, applyDeleteShards]
    split <;> exact h
  | emptyShards => exact h

/-- In every state that a group goes through companions have one status, and the table of the
clients can be ranged over. -/
structure Agreed (cf : MemoryConfigStateMachine) (G : Groups) : Prop where
  inv : Inv cf G
  uniform : ∀ {g kv}, G.Visited g kv → Uniform kv
  finite : ∀ {g kv}, G.Visited g kv → FiniteTable kv.lastOperations

/-- An entry that is accepted names a batch. -/
theorem Agreed.batch (h : Agreed cf G) (ho : Origin cf G g command)
    (haccepts : (G.group g).Accepts command) : Batch (G.group g) command.shardIDs := by
  cases ho with
  | operation | emptyShards | configuration => exact absurd haccepts id
  | @insertShards t kv kv' hv ht hv' hn =>
    rw [Accepts, getShardsData, if_neg hn.not_gt] at haccepts
    rw [Command.shardIDs, getShardsData, if_neg hn.not_gt, List.map_map,
      show (Prod.fst ∘ fun shardID => (shardID, kv'.content shardID)) = id from rfl, List.map_id]
    exact ht.batch_of_num (h.inv.states hv) (h.uniform hv) (.inl rfl) (h.inv.group t.src) haccepts
  | deleteShards hv ht =>
    exact ht.batch_of_num (h.inv.states hv) (h.uniform hv) (.inr rfl) (h.inv.group g) haccepts

theorem Agreed.finite_entry (h : Agreed cf G) {shardsInfo : ShardOperationReply}
    (ho : Origin cf G g (.insertShards shardsInfo)) : FiniteTable shardsInfo.lastOperations := by
  cases ho with
  | insertShards hv ht hv' hn =>
    rw [getShardsData, if_neg hn.not_gt]
    exact h.finite hv'

theorem Agreed.init (cf : MemoryConfigStateMachine) : Agreed cf Groups.init := by
  have hnew : ∀ {g kv}, Groups.init.Visited g kv → kv = new g := by
    rintro g kv ⟨k, rfl⟩
    simp [Groups.replica, Groups.init]
  refine ⟨Inv.init cf, fun hv => ?_, fun hv => ?_⟩
  · rw [hnew hv]
    exact fun _ _ _ => rfl
  · rw [hnew hv]
    exact Set.finite_empty.subset fun _ hc => hc rfl

theorem Agreed.commit (h : Agreed cf G) (ho : Origin cf G g command) :
    Agreed cf (G.commit g command) := by
  refine ⟨h.inv.commit ho, fun hv => ?_, fun hv => ?_⟩
  all_goals obtain hv | ⟨hg, rfl⟩ := Groups.visited_commit.1 hv
  · exact h.uniform hv
  · refine (h.uniform (G.visited_group g)).apply (h.batch ho) ?_
    rintro next rfl hnum
    exact (ho.settled hnum).1
  · exact h.finite hv
  · refine (h.finite (G.visited_group g)).apply ?_
    rintro shardsInfo rfl
    exact h.finite_entry ho

end Groups

/-! ## Agreement -/

section Entries

variable {kv kv' : ShardKV} {command : Command}

/-- What makes the result of an entry independent of the orders. -/
structure Determined (kv : ShardKV) (command : Command) : Prop where
  uniform : Uniform kv
  batch : kv.Accepts command → Batch kv command.shardIDs
  finite : ∀ shardsInfo, command = .insertShards shardsInfo → FiniteTable shardsInfo.lastOperations

namespace Determined

theorem apply_eq (h : Determined kv command) (happly : Applies kv command kv') :
    kv' = (kv.apply command).1 := by
  cases happly with
  | insertShards hnum hshards hoperations =>
    obtain ⟨status, hstatus⟩ := (h.batch hnum).status_eq h.uniform
    rw [apply_insertShards hnum, operationsLoop_eq hoperations, insertLoop_perm
      (h.batch hnum).nodup (fun p hp => hstatus p.1 (List.mem_map_of_mem hp)) hshards]
  | deleteShards hnum hshardIDs =>
    obtain ⟨status, hstatus⟩ := (h.batch hnum).status_eq h.uniform
    rw [apply_deleteShards hnum, deleteLoop_perm (h.batch hnum).nodup hstatus hshardIDs]
    rfl
  | other => rfl

theorem applies (h : Determined kv command) : Applies kv command (kv.apply command).1 := by
  by_cases haccepts : kv.Accepts command
  · cases command with
    | insertShards shardsInfo =>
      obtain ⟨operations, hoperations⟩ := exists_enumerates (h.finite shardsInfo rfl)
      rw [apply_insertShards haccepts, ← operationsLoop_eq hoperations]
      exact .insertShards haccepts (List.Perm.refl _) hoperations
    | deleteShards shardsInfo =>
      rw [apply_deleteShards haccepts]
      exact .deleteShards haccepts (List.Perm.refl _)
    | operation | configuration | emptyShards => exact absurd haccepts id
  · exact .other haccepts

theorem applies_iff (h : Determined kv command) :
    Applies kv command kv' ↔ kv' = (kv.apply command).1 :=
  ⟨h.apply_eq, fun heq => heq ▸ h.applies⟩

/-- An entry processes all shards that it names, or none. -/
theorem all_or_none (h : Determined kv command) (haccepts : kv.Accepts command) :
    (kv.apply command).1.stateMachine = kv.stateMachine ∨
      ∀ s ∈ command.shardIDs, (kv.apply command).1.status s ≠ kv.status s := by
  obtain ⟨status, hstatus⟩ := (h.batch haccepts).status_eq h.uniform
  have hnodup := (h.batch haccepts).nodup
  cases command with
  | insertShards shardsInfo =>
    rw [apply_insertShards haccepts]
    have hall : ∀ p ∈ shardsInfo.shards, (kv.stateMachine p.1).status = status := fun p hp =>
      hstatus p.1 (List.mem_map_of_mem hp)
    by_cases hp : status = .pulling
    · subst hp
      refine .inr fun s hs => ?_
      rw [hstatus s hs, show ShardKV.status _ s = _ from
        (insertLoop_status hnodup hall).trans (if_pos hs)]
      decide
    · exact .inl (insertLoop_of_not_pulling hall hp)
  | deleteShards shardsInfo =>
    rw [apply_deleteShards haccepts]
    by_cases hexp : status = .gcing ∨ status = .bePulling
    · have hall : ∀ s ∈ shardsInfo.shardIDs, (kv.stateMachine s).status = .gcing ∨
          (kv.stateMachine s).status = .bePulling := fun s hs => by
        rwa [show (kv.stateMachine s).status = status from hstatus s hs]
      refine .inr fun s hs => ?_
      rw [hstatus s hs, show ShardKV.status _ s = _ from
        (deleteLoop_status hnodup hall).trans (if_pos hs)]
      rintro rfl
      rcases hexp with hexp | hexp <;> cases hexp
    · rw [not_or] at hexp
      exact .inl (deleteLoop_of_unexpected hstatus hexp.1 hexp.2)
  | operation | configuration | emptyShards => exact absurd haccepts id

end Determined

theorem replays_nil {gid : ℤ} : Replays gid [] kv ↔ kv = new gid := by
  constructor
  · generalize hlog : ([] : List Command) = log
    rintro (_ | ⟨-, -⟩)
    · rfl
    · exact absurd hlog.symm (List.append_ne_nil_of_right_ne_nil _ (List.cons_ne_nil _ _))
  · rintro rfl
    exact .nil

theorem replays_concat {gid : ℤ} {log : List Command} :
    Replays gid (log ++ [command]) kv' ↔ ∃ kv, Replays gid log kv ∧ Applies kv command kv' := by
  constructor
  · generalize hlog : log ++ [command] = log'
    rintro (_ | ⟨h, happly⟩)
    · exact absurd hlog (List.append_ne_nil_of_right_ne_nil _ (List.cons_ne_nil _ _))
    · obtain ⟨rfl, heq⟩ := List.append_inj' hlog rfl
      cases heq
      exact ⟨_, h, happly⟩
  · rintro ⟨kv, h, happly⟩
    exact h.concat happly

end Entries

section Runs

variable {cf : MemoryConfigStateMachine} {st : Store} {as : List Store.Action} {g : Gid} {k : ℕ}

theorem determined_of_run (h : run (Store.step cf) Store.init as = some st) {command : Command}
    (hk : (st.groups.logs g)[k]? = some command) : Determined (st.groups.replica g k) command := by
  refine Store.entry_induction (I := Agreed cf) (P := fun _ kv command => Determined kv command)
    (Agreed.init cf) (fun _ _ _ hI ho => hI.commit ho) (fun G g command hI ho => ?_) h hk
  refine ⟨hI.uniform (G.visited_group g), hI.batch ho, ?_⟩
  rintro shardsInfo rfl
  exact hI.finite_entry ho

/-- A replica that has applied `k` entries is in the state of the model, whatever the orders. -/
theorem replays_iff (h : run (Store.step cf) Store.init as = some st) {kv : ShardKV} :
    Replays g ((st.groups.logs g).take k) kv ↔ kv = st.groups.replica g k := by
  induction k generalizing kv with
  | zero => exact replays_nil
  | succ k ih =>
    rcases Nat.lt_or_ge k (st.groups.logs g).length with hlt | hge
    · have hk := List.getElem?_eq_getElem hlt
      rw [List.take_succ_eq_append_getElem hlt, replays_concat, Groups.replica_succ hlt]
      constructor
      · rintro ⟨kv', hkv', happly⟩
        rw [ih.1 hkv'] at happly
        exact (determined_of_run h hk).apply_eq happly
      · rintro rfl
        exact ⟨_, ih.2 rfl, (determined_of_run h hk).applies⟩
    · have htake : (st.groups.logs g).take (k + 1) = (st.groups.logs g).take k := by
        rw [List.take_of_length_le hge, List.take_of_length_le (Nat.le_succ_of_le hge)]
      rw [htake, ih, Groups.replica_of_length_le hge,
        Groups.replica_of_length_le (Nat.le_succ_of_le hge)]

/-- **Replicas of a shard group agree.** In every state of the store, a replica that has applied the
first `k` entries of the log of its group is in one state, whatever the orders in which it has met
the maps of the entries. An insertion or deletion at the current configuration finds all shards that
it names in one status; it processes all of them or none, and has one result. -/
theorem shards_agree (h : run (Store.step cf) Store.init as = some st) (g : Gid) (k : ℕ) :
    (∀ kv, Replays g ((st.groups.logs g).take k) kv ↔ kv = st.groups.replica g k) ∧
      ∀ command, (st.groups.logs g)[k]? = some command →
        (st.groups.replica g k).Accepts command →
        (∃ status, ∀ s ∈ command.shardIDs, (st.groups.replica g k).status s = status) ∧
        ((st.groups.replica g (k + 1)).stateMachine = (st.groups.replica g k).stateMachine ∨
          ∀ s ∈ command.shardIDs,
            (st.groups.replica g (k + 1)).status s ≠ (st.groups.replica g k).status s) ∧
        ∀ kv, Applies (st.groups.replica g k) command kv ↔ kv = st.groups.replica g (k + 1) := by
  refine ⟨fun kv => replays_iff h, fun command hk haccepts => ?_⟩
  have hdet := determined_of_run h hk
  obtain ⟨hlt, hentry⟩ := List.getElem?_eq_some_iff.1 hk
  rw [Groups.replica_succ hlt, hentry]
  exact ⟨(hdet.batch haccepts).status_eq hdet.uniform, hdet.all_or_none haccepts,
    fun kv => hdet.applies_iff⟩

end Runs

/-- Group 2 inserts the five shards that it takes over from group 1. -/
theorem shards_agree_handoffRun :
    ∃ cf st command, configsOf handoffOps = some cf ∧
      run (Store.step cf) Store.init handoffRun = some st ∧
      (st.groups.logs group2)[2]? = some command ∧ command.shardIDs = [0, 1, 2, 3, 4] ∧
      (st.groups.replica group2 2).Accepts command ∧
      (st.groups.replica group2 2).status 0 = .pulling ∧
      ∀ kv, Applies (st.groups.replica group2 2) command kv ↔ kv = st.groups.replica group2 3 := by
  have h : ∃ cf, configsOf handoffOps = some cf ∧
      ∃ st, run (Store.step cf) Store.init handoffRun = some st ∧
        ∃ command, (st.groups.logs group2)[2]? = some command ∧
          command.shardIDs = [0, 1, 2, 3, 4] ∧ (st.groups.replica group2 2).Accepts command ∧
          (st.groups.replica group2 2).status 0 = .pulling := by
    decide +kernel
  obtain ⟨cf, hcf, st, hst, command, hk, hids, haccepts, hstatus⟩ := h
  exact ⟨cf, st, command, hcf, hst, hk, hids, haccepts, hstatus,
    ((shards_agree hst group2 2).2 command hk haccepts).2.2⟩

end DistSys.ShardKV
