import DistSys.Raft.Delivery
import DistSys.ShardKV.Server

/-!
# Snapshots and the applier of a shard group

The servers of one group as they run: a raft cluster whose commands are those of the group, and on
each server the state of `shardkv/server.go` with the goroutine of `applier`. Raft hands a message
over when `applier` receives from `applyCh`; `applier` then works on it under the lock, and calls
`Snapshot` while raft goes on.

`applier` skips a command that it has applied already, but it takes every snapshot: `lastApplied`
and the state go back when a snapshot is old (`lastApplied_mono_fails`). Raft hands over an old
snapshot if `InstallSnapshot` accepts one, or if another message overtakes the goroutine that is to
send it. As long as neither happens (`Replicas.Orderly`), `lastApplied` does not decrease between
restarts, and no old snapshot is taken (`lastApplied_mono`).

Snapshots are bytes for raft. What `labgob` makes of a state, and of bytes, is a parameter. The
channels on which clients wait are left out.
-/

namespace DistSys

open ShardCtrler (Config ShardId)
open Raft (ApplyMsg Data Rpc Served snapshotMsg)

namespace ShardKV

instance : Inhabited Command := ⟨.emptyShards⟩

/-! ## Snapshots of the state -/

/-- What a snapshot holds. -/
structure Image where
  lastConfig : Config
  currentConfig : Config
  stateMachine : ShardId → Shard
  lastOperations : OperationTable

/-- The encoder, and the values of the variables of `restoreSnapshot` after the decoder. -/
structure Labgob where
  encode : Image → Data
  decode : Data → Image

section Snapshots

variable (labgob : Labgob) (kv : ShardKV)

def image : Image := ⟨kv.lastConfig, kv.currentConfig, kv.stateMachine, kv.lastOperations⟩

/-- With no snapshot, `initStateMachines` only adds shards that are missing. -/
def restoreSnapshot (snapshot : Data) : ShardKV :=
  if snapshot.length < 1 then kv
  else
    let image := labgob.decode snapshot
    { kv with
      lastConfig := image.lastConfig
      currentConfig := image.currentConfig
      stateMachine := image.stateMachine
      lastOperations := image.lastOperations }

end Snapshots

/-! ## One server -/

/-- Where the goroutine of `applier` stands. -/
inductive Applier
  /-- Receiving from `applyCh`. -/
  | waiting
  /-- Has received `message`; before it takes the lock. -/
  | received (message : ApplyMsg Command)
  /-- Has applied the command at `index` and encoded the state; before `rf.Snapshot`. -/
  | takingSnapshot (index : ℕ) (data : Data)

theorem Applier.waiting_ne (message : ApplyMsg Command) : waiting ≠ .received message := by
  intro h
  cases h

theorem Applier.takingSnapshot_ne (index : ℕ) (data : Data) (message : ApplyMsg Command) :
    takingSnapshot index data ≠ .received message := by
  intro h
  cases h

/-- The state of a server next to raft. -/
structure Replica where
  kv : ShardKV
  lastApplied : ℕ
  applier : Applier

/-- `StartServer`, with the snapshot that the persister holds. -/
def startServer (labgob : Labgob) (gid : ℤ) (snapshot : Data) : Replica :=
  ⟨(new gid).restoreSnapshot labgob snapshot, 0, .waiting⟩

namespace Replica

variable (labgob : Labgob) (r : Replica)

/-- A command message; `needSnapshot` is what `kv.needSnapshot` says. -/
def applyCommand (message : ApplyMsg Command) (needSnapshot : Bool) : Replica :=
  if message.commandIndex ≤ r.lastApplied then { r with applier := .waiting }
  else
    let kv := (r.kv.apply message.command).1
    { kv := kv
      lastApplied := message.commandIndex
      applier :=
        if needSnapshot then .takingSnapshot message.commandIndex (labgob.encode kv.image)
        else .waiting }

/-- A snapshot message. -/
def applySnapshot (message : ApplyMsg Command) : Replica where
  kv := r.kv.restoreSnapshot labgob message.snapshot
  lastApplied := message.snapshotIndex
  applier := .waiting

/-- The body of `applier`. A message of neither kind is a panic. -/
def handle (message : ApplyMsg Command) (needSnapshot : Bool) : Option Replica :=
  if message.commandValid then some (r.applyCommand labgob message needSnapshot)
  else if message.snapshotValid then some (r.applySnapshot labgob message)
  else none

end Replica

end ShardKV

/-- The message that a step of raft sends on `applyCh`, and the server that sends it. -/
def Cluster.sends {n : ℕ} {C : Type} [Inhabited C] (c : Cluster n C) :
    Raft.Action n C → Option (Fin n × ApplyMsg C)
  | .commitChecker s => ((c.servers s).commitChecker.bind Prod.snd).map fun message => (s, message)
  | .sendSnapshot s k => (c.servers s).snapSenders[k]?.map fun message => (s, message)
  | _ => none

/-- The call that a step of raft delivers. -/
def Cluster.delivers {n : ℕ} {C : Type} [Inhabited C] (c : Cluster n C) :
    Raft.Action n C → Option (Raft.Call n C)
  | .deliver k => c.calls[k]?
  | _ => none

namespace ShardKV

/-! ## The group -/

/-- The servers of a group. -/
structure Replicas (n : ℕ) where
  raft : Cluster n Command
  replicas : Fin n → Replica

namespace Replicas

variable {n : ℕ}

inductive Action (n : ℕ)
  /-- A step of raft; `Snapshot` is left to `applier`. -/
  | raft (a : Raft.Action n Command)
  /-- `applier` works on the message that it has received. -/
  | apply (s : Fin n) (needSnapshot : Bool)
  /-- `applier` calls `Snapshot`. -/
  | takeSnapshot (s : Fin n)

variable (labgob : Labgob) (gid : ℤ)

def init : Replicas n := ⟨Cluster.init, fun _ => startServer labgob gid []⟩

def setReplica (g : Replicas n) (s : Fin n) (r : Replica) : Replicas n :=
  { g with replicas := Function.update g.replicas s r }

/-- Hands a message over to a server that is receiving. -/
def receive (g : Replicas n) (s : Fin n) (message : ApplyMsg Command) : Option (Replicas n) :=
  match (g.replicas s).applier with
  | .waiting => some (g.setReplica s { g.replicas s with applier := .received message })
  | _ => none

def step (g : Replicas n) : Action n → Option (Replicas n)
  | .raft (.snapshot _ _ _) => none
  | .raft (.crash s) => do
    let c ← g.raft.step (.crash s)
    some (({ g with raft := c } : Replicas n).setReplica s
      (startServer labgob gid (g.raft.servers s).persister.snapshot))
  | .raft a => do
    let c ← g.raft.step a
    match g.raft.sends a with
    | none => some { g with raft := c }
    | some (s, message) => ({ g with raft := c } : Replicas n).receive s message
  | .apply s needSnapshot =>
    match (g.replicas s).applier with
    | .received message =>
      ((g.replicas s).handle labgob message needSnapshot).map (g.setReplica s)
    | _ => none
  | .takeSnapshot s =>
    match (g.replicas s).applier with
    | .takingSnapshot index data => do
      let c ← g.raft.step (.snapshot s index data)
      some (({ g with raft := c } : Replicas n).setReplica s
        { g.replicas s with applier := .waiting })
    | _ => none

/-- The cases of a step. -/
inductive Step (g : Replicas n) : Action n → Replicas n → Prop
  | raft (a : Raft.Action n Command) (c : Cluster n Command) (hc : g.raft.step a = some c)
      (hepoch : c.epoch = g.raft.epoch) : Step g (.raft a) { g with raft := c }
  | receive (a : Raft.Action n Command) (c : Cluster n Command) (s : Fin n)
      (message : ApplyMsg Command) (hc : g.raft.step a = some c) (hepoch : c.epoch = g.raft.epoch)
      (hsends : g.raft.sends a = some (s, message)) (hw : (g.replicas s).applier = .waiting) :
    Step g (.raft a) (({ g with raft := c } : Replicas n).setReplica s
      { g.replicas s with applier := .received message })
  | crash (s : Fin n) (c : Cluster n Command) (hc : g.raft.step (.crash s) = some c) :
    Step g (.raft (.crash s)) (({ g with raft := c } : Replicas n).setReplica s
      (startServer labgob gid (g.raft.servers s).persister.snapshot))
  | apply (s : Fin n) (needSnapshot : Bool) (message : ApplyMsg Command) (r : Replica)
      (hr : (g.replicas s).applier = .received message)
      (h : (g.replicas s).handle labgob message needSnapshot = some r) :
    Step g (.apply s needSnapshot) (g.setReplica s r)
  | takeSnapshot (s : Fin n) (index : ℕ) (data : Data) (c : Cluster n Command)
      (hs : (g.replicas s).applier = .takingSnapshot index data)
      (hc : g.raft.step (.snapshot s index data) = some c) :
    Step g (.takeSnapshot s) (({ g with raft := c } : Replicas n).setReplica s
      { g.replicas s with applier := .waiting })

end Replicas

end ShardKV

/-! ## What raft does to waiting snapshots -/

section Raft

variable {n : ℕ} {C : Type} [Inhabited C] {c c' : Cluster n C} {a : Raft.Action n C}

/-- Only a restart begins a new incarnation. -/
theorem Cluster.epoch_step (h : c.step a = some c') (ha : ∀ s, a ≠ .crash s) :
    c'.epoch = c.epoch := by
  obtain ⟨c₀, hact, rfl⟩ := Cluster.step_cases h
  cases hact with
  | crash s => exact absurd rfl (ha s)
  | _ => rfl

theorem Cluster.served_step {s : Fin n} (hs : Served (fun _ => True) (c.servers s)) (hc : c.Sound)
    (h : c.step a = some c') : Served (fun _ => True) (c'.servers s) := by
  obtain ⟨c₀, hact, rfl⟩ := Cluster.step_cases h
  exact hs.move (hact.move hc s)

/-- A snapshot that waits to be sent after a step waited before, or has just been accepted. -/
theorem Cluster.mem_snapSenders_step (h : c.step a = some c') {s : Fin n} {p : ApplyMsg C}
    (hp : p ∈ (c'.servers s).snapSenders) :
    p ∈ (c.servers s).snapSenders ∨ ∃ call args, c.delivers a = some call ∧ call.server = s ∧
      call.rpc = .installSnapshot args none ∧ (c.servers s).currentTerm ≤ args.term ∧
      p = snapshotMsg args := by
  -- all steps but one leave nothing new behind
  have hset : ∀ {q : Fin n} {rf : Raft n C}, p ∈ ((c.set q rf).servers s).snapSenders →
      (∀ p ∈ rf.snapSenders, p ∈ (c.servers q).snapSenders) →
      p ∈ (c.servers s).snapSenders := fun hp hrf =>
    Cluster.forall_set (P := fun s rf => p ∈ rf.snapSenders → p ∈ (c.servers s).snapSenders)
      (fun _ => id) (hrf p) s hp
  obtain ⟨c₀, hact, rfl⟩ := Cluster.step_cases h
  have hp : p ∈ (c₀.servers s).snapSenders := hp
  clear h
  cases hact with
  | idle => exact Or.inl hp
  | start q command hl => exact Or.inl (hset hp fun _ => id)
  | spawn a q gs hl hgs => exact Or.inl hp
  | preVote q hl => exact Or.inl (hset hp fun _ => id)
  | election q rf args hcand hrf =>
    obtain ⟨rfl, -⟩ := Raft.beginElection_eq_some hrf
    exact Or.inl (hset hp fun _ => id)
  | dropTask k => exact Or.inl hp
  | runTask k t rpc ht hep hl hrpc => exact Or.inl hp
  | encode k t j ht hj => exact Or.inl hp
  | deliver k call rf rpc hk hr =>
    rcases Raft.sameDelivery_handle hr with hs | ⟨args, hrpc, hle, rfl⟩
    · exact Or.inl (hset hp fun p hp => hs.snapSenders ▸ hp)
    · by_cases hs : s = call.server
      · subst hs
        simp only [Cluster.answerCall, Cluster.set, Function.update_self] at hp
        rcases List.mem_append.1 hp with hp | hp
        · exact Or.inl hp
        · exact Or.inr ⟨call, args, hk, rfl, hrpc, hle, List.mem_singleton.1 hp⟩
      · simp only [Cluster.answerCall, Cluster.set, Function.update_of_ne hs] at hp
        exact Or.inl hp
  | receive k call rf hk hw he hr =>
    exact Or.inl (hset hp fun p hp => (Raft.sameDelivery_finish hr).snapSenders ▸ hp)
  | lose k call hk he => exact Or.inl hp
  | commitChecker q rf msg hr =>
    obtain ⟨ch, applied, rfl⟩ := Raft.commitChecker_frame hr
    exact Or.inl (hset hp fun _ => id)
  | sendSnapshot q k msg hmsg => exact Or.inl (hset hp fun p hp => List.mem_of_mem_eraseIdx hp)
  | snapshot q index data rf hr =>
    rcases Raft.snapshot_cases hr with rfl | ⟨-, -, e, -, rfl⟩
    · exact Or.inl (hset hp fun _ => id)
    · exact Or.inl (hset hp fun _ => id)
  | grow q => exact Or.inl (hset hp fun _ => id)
  | crash q =>
    refine Or.inl (hset hp fun p hp => ?_)
    rw [Raft.make_snapSenders] at hp
    cases hp

/-- What raft sends is a command, or a snapshot that waited to be sent. -/
theorem Cluster.sends_cases {s : Fin n} {message : ApplyMsg C}
    (hserved : Served (fun _ => True) (c.servers s)) (h : c.sends a = some (s, message)) :
    message.commandValid = true ∨
      message ∈ (c.servers s).snapSenders ∧ message.commandValid = false := by
  cases a with
  | commitChecker q =>
    obtain ⟨m, hm, heq⟩ := Option.map_eq_some_iff.1 h
    cases heq
    obtain ⟨⟨rf, out⟩, hr, rfl⟩ := Option.bind_eq_some_iff.1 hm
    obtain ⟨msgBuf, hbuf⟩ := Raft.commitChecker_sends hr
    obtain ⟨i, -, -, hvalid, -⟩ := hserved.sending _ hbuf
    exact Or.inl hvalid
  | sendSnapshot q k =>
    obtain ⟨m, hm, heq⟩ := Option.map_eq_some_iff.1 h
    cases heq
    have hmem := List.mem_of_getElem? hm
    exact Or.inr ⟨hmem, (hserved.snapshots _ hmem).2⟩
  | _ => cases h

end Raft

namespace ShardKV

/-- The index up to which a message brings the state. -/
def messageIndex (message : ApplyMsg Command) : ℕ :=
  if message.commandValid then message.commandIndex else message.snapshotIndex

/-- The index that a server has applied, or will have applied after the message it works on. -/
def Replica.reached (r : Replica) : ℕ :=
  match r.applier with
  | .received message => max r.lastApplied (messageIndex message)
  | _ => r.lastApplied

namespace Replicas

variable {n : ℕ} {labgob : Labgob} {gid : ℤ} {g g' : Replicas n} {a : Action n}

theorem step_cases (h : g.step labgob gid a = some g') : Step labgob gid g a g' := by
  unfold step at h
  split at h
  · cases h
  · cases h
    exact .crash _ _ rfl
  · rename_i a _ hcrash
    obtain ⟨c, hc, h⟩ := Option.bind_eq_some_iff.1 h
    have hepoch := Cluster.epoch_step hc fun s hs => hcrash s hs
    split at h
    · cases h
      exact .raft a c hc hepoch
    · rename_i s message hsends
      unfold receive at h
      split at h
      · rename_i hw
        cases h
        exact .receive a c s message hc hepoch hsends hw
      · cases h
  · split at h
    · rename_i s needSnapshot _ message hr
      obtain ⟨r, hr', rfl⟩ := Option.map_eq_some_iff.1 h
      exact .apply s needSnapshot message r hr hr'
    · cases h
  · split at h
    · rename_i s _ index data hs
      obtain ⟨c, hc, h⟩ := Option.bind_eq_some_iff.1 h
      cases h
      exact .takeSnapshot s index data c hs hc
    · cases h

@[simp] theorem setReplica_self (g : Replicas n) (s : Fin n) (r : Replica) :
    (g.setReplica s r).replicas s = r := Function.update_self _ _ _

theorem setReplica_of_ne (g : Replicas n) {s q : Fin n} (hq : q ≠ s) (r : Replica) :
    (g.setReplica s r).replicas q = g.replicas q := Function.update_of_ne hq _ _

/-! ## In what order snapshots come -/

/-- The request would install a snapshot that is older than `reached`. -/
def Outdated (rf : Raft n Command) (reached : ℕ) : Rpc n Command → Prop
  | .installSnapshot args none => rf.currentTerm ≤ args.term ∧ args.lastIncludedIndex < reached
  | _ => False

/-- No server accepts a snapshot older than what its service has been handed, and no message is
handed over while an older snapshot waits to be. -/
def Orderly (g : Replicas n) : Action n → Prop
  | .raft a =>
    (∀ call ∈ g.raft.delivers a,
      ¬ Outdated (g.raft.servers call.server) (g.replicas call.server).reached call.rpc) ∧
    ∀ m ∈ g.raft.sends a, ∀ p ∈ (g.raft.servers m.1).snapSenders,
      messageIndex m.2 ≤ p.snapshotIndex
  | _ => True

instance (rf : Raft n Command) (reached : ℕ) : (rpc : Rpc n Command) →
    Decidable (Outdated rf reached rpc)
  | .installSnapshot args none => inferInstanceAs (Decidable
      (rf.currentTerm ≤ args.term ∧ args.lastIncludedIndex < reached))
  | .installSnapshot _ (some _) | .appendEntries _ _ | .requestVote _ _ | .preVote _ => isFalse id

instance (g : Replicas n) : (a : Action n) → Decidable (g.Orderly a)
  | .raft a => inferInstanceAs (Decidable ((∀ call ∈ g.raft.delivers a,
      ¬ Outdated (g.raft.servers call.server) (g.replicas call.server).reached call.rpc) ∧
      ∀ m ∈ g.raft.sends a, ∀ p ∈ (g.raft.servers m.1).snapSenders,
        messageIndex m.2 ≤ p.snapshotIndex))
  | .apply _ _ | .takeSnapshot _ => isTrue trivial

/-- The snapshots that wait to be sent, or that `applier` has received, are not old. -/
structure Ordered (g : Replicas n) (s : Fin n) : Prop where
  served : Served (fun _ => True) (g.raft.servers s)
  pending : ∀ p ∈ (g.raft.servers s).snapSenders, (g.replicas s).reached ≤ p.snapshotIndex
  received : ∀ message, (g.replicas s).applier = .received message →
    message.commandValid = false → (g.replicas s).lastApplied ≤ message.snapshotIndex

end Replicas

namespace Replica

variable {labgob : Labgob} {r r' : Replica} {message : ApplyMsg Command} {needSnapshot : Bool}

theorem reached_of_received (h : r.applier = .received message) :
    r.reached = max r.lastApplied (messageIndex message) := by
  rw [reached, h]

/-- What `applier` makes of a message that is not an old snapshot. -/
theorem handle_mono (h : r.handle labgob message needSnapshot = some r')
    (hr : r.applier = .received message)
    (hsnap : message.commandValid = false → r.lastApplied ≤ message.snapshotIndex) :
    r.lastApplied ≤ r'.lastApplied ∧ r'.reached ≤ r.reached ∧ ∀ m, r'.applier ≠ .received m := by
  rw [reached_of_received hr]
  unfold handle at h
  split at h
  · rename_i hvalid
    cases h
    unfold applyCommand
    split
    · exact ⟨le_rfl, le_max_left _ _, Applier.waiting_ne⟩
    · rename_i hnew
      refine ⟨(Nat.not_le.1 hnew).le, ?_, ?_⟩
      · have hindex : messageIndex message = message.commandIndex := if_pos hvalid
        rw [hindex]
        refine le_trans (le_of_eq ?_) (le_max_right _ _)
        cases needSnapshot <;> rfl
      · cases needSnapshot with
        | false => exact Applier.waiting_ne
        | true => exact Applier.takingSnapshot_ne _ _
  · rename_i hvalid
    split at h
    · cases h
      have hindex : messageIndex message = message.snapshotIndex := if_neg hvalid
      rw [hindex]
      exact ⟨hsnap (Bool.not_eq_true _ ▸ hvalid), le_max_right _ _, Applier.waiting_ne⟩
    · cases h

end Replica

namespace Replicas

variable {n : ℕ} {labgob : Labgob} {gid : ℤ} {g g' : Replicas n} {a : Action n}

namespace Ordered

theorem init (s : Fin n) : (init labgob gid : Replicas n).Ordered s where
  served := Raft.served_make s {} fun _ _ => trivial
  pending _ hp := absurd hp List.not_mem_nil
  received message hr := absurd hr (Applier.waiting_ne message)

/-- A step of raft after which the service of `s` has reached as much as before. -/
theorem raft {s : Fin n} (h : g.Ordered s) {b : Raft.Action n Command} {c : Cluster n Command}
    (hsound : g.raft.Sound) (hor : g.Orderly (.raft b)) (hc : g.raft.step b = some c) :
    ({ g with raft := c } : Replicas n).Ordered s where
  served := Cluster.served_step h.served hsound hc
  pending p hp := by
    rcases Cluster.mem_snapSenders_step hc hp with hp | ⟨call, args, hcall, rfl, hrpc, hle, rfl⟩
    · exact h.pending p hp
    · have hnew := hor.1 call hcall
      rw [hrpc] at hnew
      exact Nat.not_lt.1 fun hlt => hnew ⟨hle, hlt⟩
  received := h.received

/-- The applier of `q` moves; nothing that matters here changes at other servers. -/
theorem setReplica {s q : Fin n} {r : Replica} (h : g.Ordered s)
    (hr : s = q → r.reached ≤ (g.replicas q).reached ∧ ∀ m, r.applier ≠ .received m) :
    (g.setReplica q r).Ordered s := by
  by_cases hs : s = q
  · subst hs
    obtain ⟨hle, hno⟩ := hr rfl
    refine ⟨h.served, fun p hp => ?_, fun m hm => ?_⟩
    · rw [setReplica_self]
      exact hle.trans (h.pending p hp)
    · rw [setReplica_self] at hm
      exact absurd hm (hno m)
  · refine ⟨h.served, fun p hp => ?_, fun m hm => ?_⟩
    · rw [setReplica_of_ne g hs]
      exact h.pending p hp
    · rw [setReplica_of_ne g hs] at hm ⊢
      exact h.received m hm

end Ordered

/-- Raft hands a message over. -/
theorem Ordered.receive {s q : Fin n} (h : g.Ordered s) (hsound : g.raft.Sound)
    {b : Raft.Action n Command} {c : Cluster n Command} {message : ApplyMsg Command}
    (hor : g.Orderly (.raft b)) (hc : g.raft.step b = some c)
    (hsends : g.raft.sends b = some (q, message)) (hw : (g.replicas q).applier = .waiting) :
    (({ g with raft := c } : Replicas n).setReplica q
      { g.replicas q with applier := .received message }).Ordered s := by
  by_cases hs : s = q
  · subst hs
    have hreached : (g.replicas s).reached = (g.replicas s).lastApplied := by
      rw [Replica.reached, hw]
    have hraft := h.raft hsound hor hc
    refine ⟨hraft.served, fun p hp => ?_, fun m hm hvalid => ?_⟩
    · rw [setReplica_self]
      have hlast := hraft.pending p hp
      -- a step that sends installs nothing
      have hold : p ∈ (g.raft.servers s).snapSenders := by
        rcases Cluster.mem_snapSenders_step hc hp with hp | ⟨call, args, hcall, -⟩
        · exact hp
        · cases b with
          | deliver k => cases hsends
          | _ => cases hcall
      exact max_le (hreached ▸ hlast) (hor.2 _ hsends p hold)
    · rw [setReplica_self] at hm ⊢
      cases hm
      rcases Cluster.sends_cases h.served hsends with hcommand | ⟨hmem, -⟩
      · rw [hcommand] at hvalid
        cases hvalid
      · exact hreached ▸ h.pending message hmem
  · have hraft := h.raft hsound hor hc
    exact hraft.setReplica fun heq => absurd heq hs

/-- **Order is kept by every step** in which raft keeps its side. -/
theorem Ordered.step (h : ∀ s, g.Ordered s) (hsound : g.raft.Sound) (hor : g.Orderly a)
    (hstep : g.step labgob gid a = some g') (s : Fin n) : g'.Ordered s := by
  cases step_cases hstep with
  | raft b c hc hepoch => exact (h s).raft hsound hor hc
  | receive b c q message hc hepoch hsends hw => exact (h s).receive hsound hor hc hsends hw
  | crash q c hc =>
    by_cases hs : s = q
    · subst hs
      refine ⟨Cluster.served_step (h s).served hsound hc, fun p hp => ?_, fun m hm => ?_⟩
      · cases hc
        have hmake : (g.raft.restart s).servers s = Raft.make s (g.raft.servers s).persister :=
          Function.update_self _ _ _
        have hp : p ∈ ((g.raft.restart s).servers s).snapSenders := hp
        rw [hmake, Raft.make_snapSenders] at hp
        cases hp
      · rw [setReplica_self] at hm
        cases hm
    · exact ((h s).raft hsound hor hc).setReplica fun heq => absurd heq hs
  | apply q needSnapshot message r hr hhandle =>
    refine (h s).setReplica fun _ => ?_
    exact (Replica.handle_mono hhandle hr ((h q).received message hr)).2
  | takeSnapshot q index data c hs hc =>
    refine Ordered.setReplica ⟨Cluster.served_step (h s).served hsound hc, fun p hp => ?_,
      (h s).received⟩ fun _ => ⟨?_, Applier.waiting_ne⟩
    · rcases Cluster.mem_snapSenders_step hc hp with hp | ⟨call, args, hcall, -⟩
      · exact (h s).pending p hp
      · cases hcall
    · show (g.replicas q).lastApplied ≤ _
      rw [Replica.reached, hs]

/-- `lastApplied` does not go down in a step of the same incarnation. -/
theorem lastApplied_step (h : ∀ s, g.Ordered s) (hstep : g.step labgob gid a = some g')
    (s : Fin n) : g.raft.epoch s ≤ g'.raft.epoch s ∧
      (g'.raft.epoch s = g.raft.epoch s →
        (g.replicas s).lastApplied ≤ (g'.replicas s).lastApplied) := by
  have hset : ∀ {c : Cluster n Command} {q : Fin n} {r : Replica},
      (g.replicas q).lastApplied ≤ r.lastApplied → (g.replicas s).lastApplied ≤
        ((({ g with raft := c } : Replicas n).setReplica q r).replicas s).lastApplied :=
    fun {c q r} hle => by
      by_cases hs : s = q
      · subst hs
        rwa [setReplica_self]
      · rw [setReplica_of_ne _ hs]
  cases step_cases hstep with
  | raft b c hc hepoch => exact ⟨(congrFun hepoch s).ge, fun _ => le_rfl⟩
  | receive b c q message hc hepoch hsends hw =>
    exact ⟨(congrFun hepoch s).ge, fun _ => hset le_rfl⟩
  | crash q c hc =>
    cases hc
    by_cases hs : s = q
    · subst hs
      simp only [setReplica, Cluster.refresh, Cluster.restart, Cluster.emit, Cluster.set,
        Function.update_self]
      exact ⟨Nat.le_succ _, fun hsame => absurd hsame (Nat.succ_ne_self _)⟩
    · simp only [setReplica, Cluster.refresh, Cluster.restart, Cluster.emit, Cluster.set,
        Function.update_of_ne hs]
      exact ⟨le_rfl, fun _ => le_rfl⟩
  | apply q needSnapshot message r hr hhandle =>
    refine ⟨le_rfl, fun _ => hset (c := g.raft) ?_⟩
    exact (Replica.handle_mono hhandle hr ((h q).received message hr)).1
  | takeSnapshot q index data c hs hc =>
    have hepoch := Cluster.epoch_step hc fun _ h => by cases h
    exact ⟨(congrFun hepoch s).ge, fun _ => hset le_rfl⟩

/-- The servers are sound and in order. -/
structure Inv (g : Replicas n) : Prop where
  sound : g.raft.Sound
  ordered : ∀ s, g.Ordered s

theorem Inv.init : (Replicas.init labgob gid : Replicas n).Inv :=
  ⟨Cluster.sound_init, Ordered.init⟩

theorem Inv.step (h : g.Inv) (hor : g.Orderly a) (hstep : g.step labgob gid a = some g') :
    g'.Inv := by
  refine ⟨?_, Ordered.step h.ordered h.sound hor hstep⟩
  cases step_cases hstep with
  | raft b c hc hepoch => exact h.sound.step hc
  | receive b c q message hc hepoch hsends hw => exact h.sound.step hc
  | crash q c hc => exact h.sound.step hc
  | apply q needSnapshot message r hr hhandle => exact h.sound
  | takeSnapshot q index data c hs hc => exact h.sound.step hc

end Replicas

/-- **What is applied stays applied.** In a run in which no server accepts a snapshot older than
what its service has been handed, and in which no message overtakes an older snapshot, `lastApplied`
does not decrease within an incarnation, and a snapshot message that is older than `lastApplied`
leaves the state as it is. -/
theorem lastApplied_mono {n : ℕ} {labgob : Labgob} {gid : ℤ} {as bs : List (Replicas.Action n)}
    {g g' : Replicas n}
    (hor : Along (Replicas.step labgob gid) Replicas.Orderly (Replicas.init labgob gid) (as ++ bs))
    (h : run (Replicas.step labgob gid) (Replicas.init labgob gid) as = some g)
    (h' : run (Replicas.step labgob gid) g bs = some g') (s : Fin n) :
    (g'.raft.epoch s = g.raft.epoch s →
      (g.replicas s).lastApplied ≤ (g'.replicas s).lastApplied) ∧
    ∀ message needSnapshot g'', (g'.replicas s).applier = .received message →
      message.commandValid = false → message.snapshotIndex < (g'.replicas s).lastApplied →
      g'.step labgob gid (.apply s needSnapshot) = some g'' →
      (g''.replicas s).kv.image = (g'.replicas s).kv.image := by
  have hg : g.Inv := run_induction (fun _ _ _ hP hC hstep => hP.step hC hstep) (hor.of_append h).1 h
    Replicas.Inv.init
  obtain ⟨hg', -, hmono⟩ := run_induction
    (P := fun g' => g'.Inv ∧ g.raft.epoch s ≤ g'.raft.epoch s ∧
      (g'.raft.epoch s = g.raft.epoch s →
        (g.replicas s).lastApplied ≤ (g'.replicas s).lastApplied))
    (fun g₁ a g₂ hP hC hstep => by
      obtain ⟨hinv, hle, hmono⟩ := hP
      obtain ⟨hle', hmono'⟩ := Replicas.lastApplied_step hinv.ordered hstep s
      refine ⟨hinv.step hC hstep, hle.trans hle', fun hsame => ?_⟩
      -- the incarnation did not change in between
      have hmid : g₁.raft.epoch s = g.raft.epoch s := by omega
      exact (hmono hmid).trans (hmono' (by omega)))
    (hor.of_append h).2 h' ⟨hg, le_rfl, fun _ => le_rfl⟩
  exact ⟨hmono, fun message needSnapshot g'' hr hvalid hlt _ =>
    absurd ((hg'.ordered s).received message hr hvalid) (Nat.not_le.2 hlt)⟩

/-- Group 1 gets all shards. -/
def firstConfig : Command := .configuration ⟨1, fun _ => 1, Finmap.singleton 1 ["a"]⟩

def firstPut : Command := .operation ⟨[0], [8], .put, 1, 0⟩

/-- Encodes and decodes the state after the first configuration. -/
def firstLabgob : Labgob where
  encode _ := [1]
  decode _ := (replay 1 [firstConfig]).image

/-- Steps of raft. -/
def raftSteps (as : List (Raft.Action 3 Command)) : List (Replicas.Action 3) := as.map .raft

/-- Server 0 of three leads term 2. The configuration reaches servers 1 and 2, but the reply of
server 2 is lost; it is committed with server 1, and server 0 applies it. The `Put` follows and is
on its way to server 2 (call 6), which is still to be sent the configuration as well. Then server 0
takes a snapshot and sends it to server 2 (call 7). -/
def compactedRun : List (Replicas.Action 3) :=
  raftSteps [.timeout 0, .deliver 0, .receive 0, .timeout 0, .deliver 2, .receive 2,
    .commitChecker 0, .commitChecker 2, .start 0 firstConfig, .msgComing 0, .task 0, .task 0,
    .deliver 4, .receive 4, .deliver 5, .lose 5, .commitChecker 0, .commitChecker 0] ++
  [Replicas.Action.apply 0 true] ++ raftSteps [.start 0 firstPut, .msgComing 0, .task 1] ++
  [Replicas.Action.takeSnapshot 0] ++ raftSteps [.msgComing 0, .task 2]

/-- Server 2 gets both commands, learns that they are committed and applies them. The snapshot
arrives afterwards, and `applier` receives it. -/
def lateSnapshotRun : List (Replicas.Action 3) :=
  compactedRun ++ raftSteps [.deliver 6, .receive 6, .msgComing 0, .task 3, .deliver 8,
    .commitChecker 2, .commitChecker 2] ++ [Replicas.Action.apply 2 false] ++
  raftSteps [.commitChecker 2, .commitChecker 2] ++ [Replicas.Action.apply 2 false] ++
  raftSteps [.deliver 7, .sendSnapshot 2 0]

theorem lastApplied_mono_fails :
    firstLabgob.decode (firstLabgob.encode (replay 1 [firstConfig]).image) =
      (replay 1 [firstConfig]).image ∧
    ∃ g g' : Replicas 3,
      run (Replicas.step firstLabgob 1) (Replicas.init firstLabgob 1) lateSnapshotRun = some g ∧
      g.step firstLabgob 1 (.apply 2 false) = some g' ∧ g'.raft.epoch 2 = g.raft.epoch 2 ∧
      (g.replicas 2).lastApplied = 2 ∧ (g'.replicas 2).lastApplied = 1 ∧
      (g.replicas 2).kv.content 0 [0] = some [8] ∧ (g'.replicas 2).kv.content 0 [0] = none := by
  refine ⟨rfl, ?_⟩
  have h : ∃ g : Replicas 3,
      run (Replicas.step firstLabgob 1) (Replicas.init firstLabgob 1) lateSnapshotRun = some g ∧
      ∃ g', g.step firstLabgob 1 (.apply 2 false) = some g' ∧
        g'.raft.epoch 2 = g.raft.epoch 2 ∧ (g.replicas 2).lastApplied = 2 ∧
        (g'.replicas 2).lastApplied = 1 ∧ (g.replicas 2).kv.content 0 [0] = some [8] ∧
        (g'.replicas 2).kv.content 0 [0] = none := by
    decide +kernel
  obtain ⟨g, hg, g', hg', h⟩ := h
  exact ⟨g, g', hg, hg', h⟩

/-- Server 2 takes the snapshot first. -/
def promptSnapshotRun : List (Replicas.Action 3) :=
  compactedRun ++ raftSteps [.deliver 7, .sendSnapshot 2 0] ++ [Replicas.Action.apply 2 false]

/-- The `Put` is replicated and committed afterwards. -/
def catchUpRun : List (Replicas.Action 3) :=
  raftSteps [.receive 7, .msgComing 0, .task 3, .deliver 8, .receive 8, .msgComing 0, .task 4,
    .deliver 9, .commitChecker 2, .commitChecker 2] ++ [Replicas.Action.apply 2 false]

theorem lastApplied_mono_catchUpRun :
    ∃ g g' : Replicas 3,
      run (Replicas.step firstLabgob 1) (Replicas.init firstLabgob 1) promptSnapshotRun = some g ∧
      run (Replicas.step firstLabgob 1) g catchUpRun = some g' ∧
      (g.replicas 2).lastApplied = 1 ∧ (g'.replicas 2).kv.content 0 [0] = some [8] ∧
      (g.replicas 2).lastApplied ≤ (g'.replicas 2).lastApplied := by
  have h : ∃ g : Replicas 3,
      run (Replicas.step firstLabgob 1) (Replicas.init firstLabgob 1) promptSnapshotRun = some g ∧
      ∃ g', run (Replicas.step firstLabgob 1) g catchUpRun = some g' ∧
        g'.raft.epoch 2 = g.raft.epoch 2 ∧ (g.replicas 2).lastApplied = 1 ∧
        (g'.replicas 2).kv.content 0 [0] = some [8] := by
    decide +kernel
  have hor : Along (Replicas.step firstLabgob 1) Replicas.Orderly (Replicas.init firstLabgob 1)
      (promptSnapshotRun ++ catchUpRun) := by
    decide +kernel
  obtain ⟨g, hg, g', hg', hepoch, hone, hvalue⟩ := h
  exact ⟨g, g', hg, hg', hone, hvalue, (lastApplied_mono hor hg hg' 2).1 hepoch⟩

end ShardKV

end DistSys
