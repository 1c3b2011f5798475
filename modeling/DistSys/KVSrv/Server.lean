import Mathlib.Data.Int.Order.Basic
import Mathlib.Logic.Function.Basic

/-!
# The single key/value server

`kvsrv/server.go` and `kvsrv/client.go`: a server that keeps one map, and clerks that repeat their
calls until one is answered. A clerk numbers its `Put`s and `Append`s from 0 on; the server executes
a request only if it has the number that it expects from the clerk next.

* `KVServer.get`, `KVServer.put`, `KVServer.append` — the handlers.
* `System.step` — the server, the clerks and the network between them. A request that has been sent
  can reach the server at any time and any number of times, a reply can reach the clerk at any time
  as long as it waits for it, and either may be lost.
-/

namespace DistSys.KVSrv

/-- Go strings are strings of bytes. -/
abbrev Key := List UInt8

abbrev Value := List UInt8

inductive Op where
  | put
  | append
  deriving DecidableEq

structure PutAppendArgs where
  key : Key
  value : Value
  clerkId : ℤ
  count : ℤ
  deriving DecidableEq

structure PutAppendReply where
  value : Value
  vaildOp : Bool
  deriving DecidableEq

/-- `opReply` maps a clerk and a number to the reply of that `Append`. -/
structure KVServer where
  clerkIdCount : ℤ → Option ℤ
  map : Key → Option Value
  opReply : ℤ × ℤ → Option Value

namespace KVServer

def start : KVServer := ⟨fun _ => none, fun _ => none, fun _ => none⟩

variable (kv : KVServer)

/-- `kv._map[key]`; an absent key reads as the empty string. -/
def read (key : Key) : Value := (kv.map key).getD []

def get (key : Key) : Value := kv.read key

/-- The beginning of `Put` and `Append`: a new clerk is entered with the count 0, and the number
that is expected from the clerk is found. -/
def expect (clerkId : ℤ) : KVServer × ℤ :=
  match kv.clerkIdCount clerkId with
  | none => ({ kv with clerkIdCount := Function.update kv.clerkIdCount clerkId (some 0) }, 0)
  | some nowCount => (kv, nowCount + 1)

def put (args : PutAppendArgs) : KVServer × PutAppendReply :=
  let (kv, exceptCount) := kv.expect args.clerkId
  if args.count ≠ exceptCount then (kv, ⟨kv.read args.key, false⟩)
  else
    ({ kv with
        map := Function.update kv.map args.key (some args.value)
        clerkIdCount := Function.update kv.clerkIdCount args.clerkId (some exceptCount) },
      ⟨[], true⟩)

def append (args : PutAppendArgs) : KVServer × PutAppendReply :=
  let (kv, exceptCount) := kv.expect args.clerkId
  if args.count ≠ exceptCount then
    (kv, ⟨(kv.opReply (args.clerkId, args.count)).getD [], false⟩)
  else
    ({ kv with
        opReply := Function.update
          (Function.update kv.opReply (args.clerkId, args.count) (some (kv.read args.key)))
          (args.clerkId, args.count - 1) none
        map := Function.update kv.map args.key (some (kv.read args.key ++ args.value))
        clerkIdCount := Function.update kv.clerkIdCount args.clerkId (some exceptCount) },
      ⟨kv.read args.key, true⟩)

def putAppend : Op → PutAppendArgs → KVServer × PutAppendReply
  | .put => kv.put
  | .append => kv.append

end KVServer

/-! ## Clerks and network -/

inductive Request where
  | get (key : Key) (clerkId : ℤ)
  | putAppend (op : Op) (args : PutAppendArgs)
  deriving DecidableEq

def Request.clerkId : Request → ℤ
  | .get _ clerkId => clerkId
  | .putAppend _ args => args.clerkId

/-- The numbers of the clerks after the call has returned: `PutAppend` then takes the next one. -/
def Request.nextCount (count : ℤ → ℤ) : Request → ℤ → ℤ
  | .get _ _ => count
  | .putAppend _ args => Function.update count args.clerkId (count args.clerkId + 1)

/-- A `Put` or `Append` that the server has executed: the request with this number. -/
structure Applied where
  index : ℕ
  op : Op
  args : PutAppendArgs
  deriving DecidableEq

/-- Requests are numbered in the order in which the clerks made them, and a reply carries the number
of its request. `pending` is the request that a clerk waits for. `applied` records the executed
requests in order, `returned` what the calls of the clerks have returned. -/
structure System where
  server : KVServer
  count : ℤ → ℤ
  pending : ℤ → Option ℕ
  requests : List Request
  replies : List (ℕ × Value)
  applied : List Applied
  returned : List (ℕ × Value)

namespace System

def init : System := ⟨.start, fun _ => 0, fun _ => none, [], [], [], []⟩

inductive Action where
  /-- A clerk that is not waiting calls `Get`, or `PutAppend`. -/
  | get (clerkId : ℤ) (key : Key)
  | putAppend (clerkId : ℤ) (op : Op) (key : Key) (value : Value)
  /-- A copy of request `i` reaches the server. -/
  | deliver (i : ℕ)
  /-- The `j`-th reply reaches its clerk. -/
  | receive (j : ℕ)

variable (st : System)

/-- The clerk sends a request and waits. -/
def send (request : Request) : Option System :=
  if st.pending request.clerkId = none then
    some { st with
      pending := Function.update st.pending request.clerkId (some st.requests.length)
      requests := st.requests ++ [request] }
  else none

/-- The server handles request `i`. -/
def handle (i : ℕ) : Request → System
  | .get key _ => { st with replies := st.replies ++ [(i, st.server.get key)] }
  | .putAppend op args =>
    let r := st.server.putAppend op args
    { st with
      server := r.1
      replies := st.replies ++ [(i, r.2.value)]
      applied := st.applied ++ if r.2.vaildOp then [⟨i, op, args⟩] else [] }

/-- The clerk's call returns. -/
def finish (i : ℕ) (value : Value) (request : Request) : Option System :=
  if st.pending request.clerkId = some i then
    some { st with
      count := request.nextCount st.count
      pending := Function.update st.pending request.clerkId none
      returned := st.returned ++ [(i, value)] }
  else none

def step (st : System) : Action → Option System
  | .get clerkId key => st.send (.get key clerkId)
  | .putAppend clerkId op key value =>
    st.send (.putAppend op ⟨key, value, clerkId, st.count clerkId⟩)
  | .deliver i => st.requests[i]?.map (st.handle i)
  | .receive j => do
    let (i, value) ← st.replies[j]?
    let request ← st.requests[i]?
    st.finish i value request

end System

end DistSys.KVSrv
