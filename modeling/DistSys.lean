import DistSys.Lib.Runs
import DistSys.Lib.Majority
import DistSys.Lib.Linked
import DistSys.Lib.ConsensusSafety
import DistSys.Lib.Succession
import DistSys.Raft.LogMatching
import DistSys.Raft.Bounds
import DistSys.Raft.Leadership
import DistSys.Raft.Merge
import DistSys.Raft.Snapshots
import DistSys.Raft.CatchUp
import DistSys.Raft.TermOrder
import DistSys.Raft.Started
import DistSys.Lib.ReplicatedLog
import DistSys.Raft.Hosted
import DistSys.ShardCtrler.Config
import DistSys.ShardCtrler.Server
import DistSys.ShardCtrler.Validity
import DistSys.ShardCtrler.Balance
import DistSys.ShardKV.Server
import DistSys.ShardKV.Ownership
import DistSys.ShardKV.Contents
import DistSys.ShardKV.Handoff
import DistSys.ShardKV.Applier
import DistSys.ShardKV.Restore
import DistSys.ShardKV.Clerks
import DistSys.ShardKV.Agreement
import DistSys.Service.Notify
import DistSys.ShardCtrler.Deal
import DistSys.ShardCtrler.Agreement
import DistSys.KVSrv.Server
import DistSys.KVSrv.ExactlyOnce
import DistSys.KVSrv.Replies
import DistSys.KVRaft.Linearizable
import DistSys.KVRaft.Waiting
import DistSys.MapReduce.Progress
import DistSys.MapReduce.Equivalence
import DistSys.Lib.Linearizability
import DistSys.Lib.LinearizeSearch
import DistSys.Lib.DoublyLinked
import DistSys.Porcupine.Checker
import DistSys.Lib.CallHistory
import DistSys.KVRaft.OverRaft
import DistSys.KVRaft.Answers
import DistSys.ShardCtrler.OverRaft
import DistSys.ShardKV.OverRaft
import DistSys.KVSrv.Checked
import DistSys.ShardKV.Checked
import DistSys.Porcupine.Events
import DistSys.ShardKV.Deployment
import DistSys.ShardKV.ClerksOverRaft
