import DistSys.ShardCtrler.Config

/-!
# The replicated state of the shard controller

`shardctrler/server.go`: the configurations together with the table of the clients, and what the
applier makes of a command.
-/

namespace DistSys

namespace ShardCtrler

inductive Err where
  | ok
  | errWrongLeader
  | errTimeout
  deriving DecidableEq

structure CommandArgs where
  op : Op
  clientId : ℤ
  commandId : ℤ
  deriving DecidableEq

structure CommandReply where
  err : Err
  config : Config
  deriving DecidableEq

structure OperationContext where
  maxAppliedCommandId : ℤ
  lastReply : CommandReply

def Op.IsQuery : Op → Bool
  | .query _ => true
  | .join _ | .leave _ | .move _ _ => false

end ShardCtrler

structure ShardCtrler where
  stateMachine : ShardCtrler.MemoryConfigStateMachine
  lastOperations : ℤ → Option ShardCtrler.OperationContext

namespace ShardCtrler

def new : ShardCtrler := ⟨newMemoryConfigStateMachine, fun _ => none⟩

def isDuplicateRequest (sc : ShardCtrler) (clientId commandId : ℤ) : Bool :=
  (sc.lastOperations clientId).any fun context => commandId ≤ context.maxAppliedCommandId

/-- The reply carries a configuration only for a query. -/
def applyLogToStateMachine (order : RangeOrder) (fuel : ℕ) (cf : MemoryConfigStateMachine)
    (op : Op) : Option (MemoryConfigStateMachine × CommandReply) :=
  (apply order fuel cf op).map fun cf' =>
    match op with
    | .query num => (cf', ⟨.ok, cf.query num⟩)
    | .join _ | .leave _ | .move _ _ => (cf', ⟨.ok, defaultConfig⟩)

/-- The reply kept for the client's last command. -/
def lastReply (sc : ShardCtrler) (clientId : ℤ) : CommandReply :=
  ((sc.lastOperations clientId).map (·.lastReply)).getD ⟨.ok, defaultConfig⟩

/-- The applier: a duplicate is answered from the table. -/
def applyCommand (order : RangeOrder) (fuel : ℕ) (sc : ShardCtrler) (command : CommandArgs) :
    Option (ShardCtrler × CommandReply) :=
  if ¬ command.op.IsQuery ∧ sc.isDuplicateRequest command.clientId command.commandId then
    some (sc, sc.lastReply command.clientId)
  else
    (applyLogToStateMachine order fuel sc.stateMachine command.op).map fun r =>
      if command.op.IsQuery then (⟨r.1, sc.lastOperations⟩, r.2)
      else
        (⟨r.1, Function.update sc.lastOperations command.clientId
          (some ⟨command.commandId, r.2⟩)⟩, r.2)

end ShardCtrler

end DistSys
