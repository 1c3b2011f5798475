import DistSys.ShardCtrler.Config

/-!
# The replicated state of a shard group

`shardkv/server.go` and `shardkv/shard.go`: the state that a replica group keeps, the five kinds
of log entries, and what applying each of them does. A group is one replicated state machine: the
state of a replica is the replay of the committed entries it has applied.

Go maps that are only read, written or merged key by key are partial functions; the shards of a
pull reply, which the loop in `applyInsertShards` leaves early, are a list in the order in which
the loop meets them.

* `ShardKV.apply` — the `switch` of the applier.
* `ShardKV.command` — the checks of the handler for clients.
* `ShardKV.getShardsData`, `ShardKV.deleteShardsData` — the handlers between groups.
* `ShardKV.configurationAction`, `ShardKV.getShardIDsByStatus` — what the monitors propose.
-/

namespace DistSys

open ShardCtrler (Config ShardId NShards MemoryConfigStateMachine defaultConfig)

namespace ShardKV

/-- Go strings are strings of bytes. -/
abbrev Key := List UInt8

abbrev Value := List UInt8

def key2shard : Key → ShardId
  | [] => 0
  | b :: _ => Fin.ofNat NShards b.toNat

inductive Err where
  | ok
  | errNoKey
  | errWrongGroup
  | errWrongLeader
  | errOutDated
  | errTimeout
  | errNotReady
  deriving DecidableEq

inductive ShardStatus where
  | serving
  | pulling
  | bePulling
  | gcing
  deriving DecidableEq

/-! ## Shards -/

structure Shard where
  kv : Key → Option Value
  status : ShardStatus

def newShard : Shard := ⟨fun _ => none, .serving⟩

namespace Shard

def get (shard : Shard) (key : Key) : Value × Err :=
  match shard.kv key with
  | some value => (value, .ok)
  | none => ([], .errNoKey)

def put (shard : Shard) (key : Key) (value : Value) : Shard :=
  { shard with kv := Function.update shard.kv key (some value) }

def append (shard : Shard) (key : Key) (value : Value) : Shard :=
  { shard with kv := Function.update shard.kv key (some ((shard.kv key).getD [] ++ value)) }

/-- `Put` of every pair of `data`. -/
def putAll (shard : Shard) (data : Key → Option Value) : Shard :=
  { shard with kv := fun key => (data key).or (shard.kv key) }

end Shard

/-! ## Commands -/

inductive OperationType where
  | get
  | put
  | append
  deriving DecidableEq

structure CommandArgs where
  key : Key
  value : Value
  op : OperationType
  clientId : ℤ
  commandId : ℤ
  deriving DecidableEq

structure CommandReply where
  err : Err
  value : Value
  deriving DecidableEq

structure OperationContext where
  maxAppliedCommandId : ℤ
  lastReply : CommandReply

abbrev OperationTable := ℤ → Option OperationContext

structure ShardOperationArgs where
  configNum : ℕ
  shardIDs : List ShardId

structure ShardOperationReply where
  err : Err
  configNum : ℕ
  shards : List (ShardId × (Key → Option Value))
  lastOperations : OperationTable

inductive Command where
  | operation (args : CommandArgs)
  | configuration (config : Config)
  | insertShards (shardsInfo : ShardOperationReply)
  | deleteShards (shardsInfo : ShardOperationArgs)
  | emptyShards

/-- The command is not newer than the client's last one in the table. -/
def isDuplicate (lastOperations : OperationTable) (clientId commandId : ℤ) : Bool :=
  (lastOperations clientId).any fun context => commandId ≤ context.maxAppliedCommandId

end ShardKV

/-- The replicated part of a server of the group `gid`. -/
structure ShardKV where
  gid : ℤ
  lastConfig : Config
  currentConfig : Config
  stateMachine : ShardId → ShardKV.Shard
  lastOperations : ShardKV.OperationTable

namespace ShardKV

def new (gid : ℤ) : ShardKV where
  gid := gid
  lastConfig := defaultConfig
  currentConfig := defaultConfig
  stateMachine := fun _ => newShard
  lastOperations := fun _ => none

/-! ## Applying an entry -/

section Apply

variable (kv : ShardKV)

abbrev num : ℕ := kv.currentConfig.num

abbrev status (shardID : ShardId) : ShardStatus := (kv.stateMachine shardID).status

/-- The keys and values kept for a shard. -/
abbrev content (shardID : ShardId) : Key → Option Value := (kv.stateMachine shardID).kv

def setShard (shardID : ShardId) (shard : Shard) : ShardKV :=
  { kv with stateMachine := Function.update kv.stateMachine shardID shard }

def isDuplicateRequest (clientId commandId : ℤ) : Bool :=
  isDuplicate kv.lastOperations clientId commandId

def canServe (shardID : ShardId) : Prop :=
  kv.currentConfig.shards shardID = kv.gid ∧
    (kv.status shardID = .serving ∨ kv.status shardID = .gcing)

instance (shardID : ShardId) : Decidable (kv.canServe shardID) :=
  inferInstanceAs (Decidable (_ ∧ (_ ∨ _)))

def applyLogToStateMachine (operation : CommandArgs) (shardID : ShardId) :
    ShardKV × CommandReply :=
  let shard := kv.stateMachine shardID
  match operation.op with
  | .get => (kv, ⟨(shard.get operation.key).2, (shard.get operation.key).1⟩)
  | .put => (kv.setShard shardID (shard.put operation.key operation.value), ⟨.ok, []⟩)
  | .append => (kv.setShard shardID (shard.append operation.key operation.value), ⟨.ok, []⟩)

/-- The reply kept for the client's last command. -/
def lastReply (clientId : ℤ) : CommandReply :=
  ((kv.lastOperations clientId).map (·.lastReply)).getD ⟨.ok, []⟩

/-- The entry is executed: it is neither refused nor answered from the table. -/
def Executes (operation : CommandArgs) : Prop :=
  kv.canServe (key2shard operation.key) ∧
    ¬ (operation.op ≠ .get ∧ kv.isDuplicateRequest operation.clientId operation.commandId)

instance (operation : CommandArgs) : Decidable (kv.Executes operation) :=
  inferInstanceAs (Decidable (_ ∧ ¬ (_ ∧ _)))

/-- Remembers the command as the client's last one, unless it is a `Get`. -/
def remember (operation : CommandArgs) (reply : CommandReply) : ShardKV :=
  if operation.op ≠ .get then
    { kv with
      lastOperations := Function.update kv.lastOperations operation.clientId
        (some ⟨operation.commandId, reply⟩) }
  else kv

def applyOperation (operation : CommandArgs) : ShardKV × CommandReply :=
  if ¬ kv.canServe (key2shard operation.key) then (kv, ⟨.errWrongGroup, []⟩)
  else if operation.op ≠ .get ∧ kv.isDuplicateRequest operation.clientId operation.commandId then
    (kv, kv.lastReply operation.clientId)
  else
    let r := kv.applyLogToStateMachine operation (key2shard operation.key)
    (r.1.remember operation r.2, r.2)

/-- The status of a shard whose owner changes from `current` to `next`. -/
def nextStatus (gid current next : ℤ) (status : ShardStatus) : ShardStatus :=
  let status := if current ≠ gid ∧ next = gid ∧ current ≠ 0 then .pulling else status
  if current = gid ∧ next ≠ gid ∧ next ≠ 0 then .bePulling else status

def updateShardStatus (nextConfig : Config) : ShardKV :=
  { kv with
    stateMachine := fun shardID =>
      { kv.stateMachine shardID with
        status := nextStatus kv.gid (kv.currentConfig.shards shardID) (nextConfig.shards shardID)
          (kv.status shardID) } }

def applyConfiguration (nextConfig : Config) : ShardKV × CommandReply :=
  if nextConfig.num = kv.num + 1 then
    ({ kv.updateShardStatus nextConfig with
        lastConfig := kv.currentConfig
        currentConfig := nextConfig }, ⟨.ok, []⟩)
  else (kv, ⟨.errOutDated, []⟩)

/-- The loop over the shards of a pull reply, left at the first shard that is not `Pulling`. -/
def insertLoop : List (ShardId × (Key → Option Value)) → (ShardId → Shard) → ShardId → Shard
  | [], stateMachine => stateMachine
  | (shardID, data) :: rest, stateMachine =>
    if (stateMachine shardID).status = .pulling then
      insertLoop rest (Function.update stateMachine shardID
        { (stateMachine shardID).putAll data with status := .gcing })
    else stateMachine

/-- The later of two contexts of each client. -/
def mergeOperations (lastOperations new : OperationTable) : OperationTable := fun clientId =>
  match new clientId with
  | none => lastOperations clientId
  | some context =>
    if (lastOperations clientId).all (·.maxAppliedCommandId < context.maxAppliedCommandId) then
      some context
    else lastOperations clientId

def applyInsertShards (shardsInfo : ShardOperationReply) : ShardKV × CommandReply :=
  if shardsInfo.configNum = kv.num then
    ({ kv with
        stateMachine := insertLoop shardsInfo.shards kv.stateMachine
        lastOperations := mergeOperations kv.lastOperations shardsInfo.lastOperations }, ⟨.ok, []⟩)
  else (kv, ⟨.errOutDated, []⟩)

/-- The loop over the shards to delete, left at the first one in neither expected status. -/
def deleteLoop : List ShardId → (ShardId → Shard) → ShardId → Shard
  | [], stateMachine => stateMachine
  | shardID :: rest, stateMachine =>
    if (stateMachine shardID).status = .gcing then
      deleteLoop rest (Function.update stateMachine shardID
        { stateMachine shardID with status := .serving })
    else if (stateMachine shardID).status = .bePulling then
      deleteLoop rest (Function.update stateMachine shardID newShard)
    else stateMachine

def applyDeleteShards (shardsInfo : ShardOperationArgs) : ShardKV × CommandReply :=
  if shardsInfo.configNum = kv.num then
    ({ kv with stateMachine := deleteLoop shardsInfo.shardIDs kv.stateMachine }, ⟨.ok, []⟩)
  else (kv, ⟨.ok, []⟩)

def applyEmptyShards : ShardKV × CommandReply := (kv, ⟨.ok, []⟩)

/-- The `switch` of the applier. -/
def apply : Command → ShardKV × CommandReply
  | .operation args => kv.applyOperation args
  | .configuration config => kv.applyConfiguration config
  | .insertShards shardsInfo => kv.applyInsertShards shardsInfo
  | .deleteShards shardsInfo => kv.applyDeleteShards shardsInfo
  | .emptyShards => kv.applyEmptyShards

end Apply

/-- The state of a replica that has applied the entries of `log`. -/
def replay (gid : ℤ) (log : List Command) : ShardKV :=
  log.foldl (fun kv command => (kv.apply command).1) (new gid)

@[simp] theorem replay_nil (gid : ℤ) : replay gid [] = new gid := rfl

@[simp] theorem replay_concat (gid : ℤ) (log : List Command) (command : Command) :
    replay gid (log ++ [command]) = ((replay gid log).apply command).1 := by
  simp [replay]

/-! ## Handlers and monitors -/

section Monitors

variable (kv : ShardKV)

/-- Every shard is `Serving`. -/
def Settled : Prop := ∀ shardID, kv.status shardID = .serving

instance : Decidable kv.Settled := inferInstanceAs (Decidable (∀ _, _))

/-- The answer of `Command` before it passes the operation to raft, if it does not. -/
def command (args : CommandArgs) : Option CommandReply :=
  if args.op ≠ .get ∧ kv.isDuplicateRequest args.clientId args.commandId then
    some (kv.lastReply args.clientId)
  else if ¬ kv.canServe (key2shard args.key) then some ⟨.errWrongGroup, []⟩
  else none

/-- The configuration that a leader in this state proposes, if it proposes one. -/
def configurationAction (cf : MemoryConfigStateMachine) : Option Command :=
  if kv.Settled then
    let nextConfig := cf.query ((kv.num + 1 : ℕ) : ℤ)
    if nextConfig.num = kv.num + 1 then some (.configuration nextConfig) else none
  else none

/-- The shards with the status whose last owner was the group `gid`, in some order of the map. -/
def getShardIDsByStatus (status : ShardStatus) (gid : ℤ) : List ShardId :=
  (List.finRange NShards).filter fun shardID =>
    kv.status shardID = status ∧ kv.lastConfig.shards shardID = gid ∧ gid ≠ 0

/-- A leader's answer to a pull. -/
def getShardsData (args : ShardOperationArgs) : ShardOperationReply :=
  if kv.num < args.configNum then ⟨.errNotReady, 0, [], fun _ => none⟩
  else
    ⟨.ok, args.configNum, args.shardIDs.map fun shardID => (shardID, kv.content shardID),
      kv.lastOperations⟩

/-- What a leader passes to raft for a delete request. A group that has moved on answers at
once. -/
def deleteShardsData (args : ShardOperationArgs) : Option Command :=
  if args.configNum < kv.num then none else some (.deleteShards args)

end Monitors

end ShardKV

end DistSys
