import DistSys.ShardKV.Applier

/-!
# Snapshots that cannot be read

`restoreSnapshot` decodes four values into four variables, one after the other, and stops at the
first error. It only logs the error: the variables are assigned to the server all the same, those
that were not reached with their zero values. `LoadSnapShot` of `kvraft` assigns them only if there
was no error.

`Server` has a shard for every identifier and a table that can be written to. Here the two maps are
those of Go, which may be nil, and so may a shard in `stateMachine`; what stops the program gives
`none`. The decoder is a parameter, and may fail at each of the four values.

* `Memory.restoreSnapshot`, `Memory.initStateMachines`, `Memory.applyOperation` — the source.
* `Memory.Represents` — the memory of a server with the state of `Server`.
* `Represents.run` — as long as what is restored can be read, the server follows `Server`: no
  operation meets a nil shard or a nil map.
* `restoreSnapshot_all_or_nothing` — when restoring a snapshot keeps or replaces the four values
  together.
* `lastOperations_of_restoreSnapshot` — after an error in one of the first three values
  `lastOperations` is nil, and the next `Put` or `Append` that is not refused stops the server
  (`applyOperation_of_nil`).
-/

namespace DistSys

open ShardCtrler (Config ShardId NShards defaultConfig)
open Raft (Data)

/-! ## Maps that may be nil

A nil map can be read and holds nothing, but a write to it stops the program. -/

/-- A map from `α` to `β`, nil or made. -/
inductive NilMap (α β : Type*)
  | nil
  | of (f : α → Option β)

namespace NilMap

variable {α β : Type*} [DecidableEq α]

omit [DecidableEq α] in
/-- What a read finds. -/
def get : NilMap α β → α → Option β
  | nil, _ => none
  | of f, a => f a

/-- A write, which stops at a nil map. -/
def insert (a : α) (b : β) : NilMap α β → Option (NilMap α β)
  | nil => none
  | of f => some (of (Function.update f a (some b)))

/-- The loop that writes `b` to each of `keys` that is missing. -/
def fill (b : β) : List α → NilMap α β → Option (NilMap α β)
  | [], m => some m
  | a :: keys, m =>
    if (m.get a).isNone then (m.insert a b).bind (fill b keys) else fill b keys m

/-- In a map that has been made the loop adds what is missing. -/
theorem fill_of (b : β) (keys : List α) (f : α → Option β) :
    (of f).fill b keys =
      some (of fun a => if a ∈ keys then some ((f a).getD b) else f a) := by
  induction keys generalizing f with
  | nil => simp [fill]
  | cons a keys ih =>
    rw [fill]
    split
    · rename_i hnone
      have ha : f a = none := Option.isNone_iff_eq_none.1 hnone
      rw [insert, Option.bind_some, ih]
      congr 2
      funext x
      by_cases hx : x = a
      · subst hx
        simp [ha]
      · simp [hx]
    · rename_i hsome
      obtain ⟨b', hb'⟩ := Option.ne_none_iff_exists'.1 (mt Option.isNone_iff_eq_none.2 hsome)
      have ha : f a = some b' := hb'
      rw [ih]
      congr 2
      funext x
      by_cases hx : x = a
      · subst hx
        simp [ha]
      · simp [hx]

end NilMap

namespace ShardKV

/-! ## The values of a snapshot -/

/-- The four values that a snapshot holds, as they are in memory. The defaults are the zero values;
the groups of a zero configuration are nil, but they are only read. -/
structure Fields where
  lastConfig : Config := defaultConfig
  currentConfig : Config := defaultConfig
  stateMachine : NilMap ℤ (Option Shard) := .nil
  lastOperations : NilMap ℤ OperationContext := .nil

namespace Fields

/-- `stateMachine[shardID]` where the shard is used: `none` if it is missing or nil. -/
def shard (v : Fields) (shardID : ShardId) : Option Shard :=
  (v.stateMachine.get (shardID : ℕ)).join

/-- Every shard is there, and `lastOperations` can be written to. -/
structure Usable (v : Fields) : Prop where
  shards : ∀ shardID, (v.shard shardID).isSome
  lastOperations : v.lastOperations ≠ .nil

/-- Both maps can be written to, and no shard is nil; shards may be missing. -/
structure Made (v : Fields) : Prop where
  stateMachine : v.stateMachine ≠ .nil
  shards : ∀ shardID : ShardId, v.stateMachine.get (shardID : ℕ) ≠ some none
  lastOperations : v.lastOperations ≠ .nil

/-- `v'` is `v`, apart from missing shards that were added empty. -/
structure Keeps (v v' : Fields) : Prop where
  lastConfig : v'.lastConfig = v.lastConfig
  currentConfig : v'.currentConfig = v.currentConfig
  stateMachine : ∀ id, v'.stateMachine.get id = v.stateMachine.get id ∨
    v.stateMachine.get id = none ∧ v'.stateMachine.get id = some (some newShard) ∧
      ∃ shardID : ShardId, id = (shardID : ℕ)
  lastOperations : v'.lastOperations = v.lastOperations

/-- The values in memory are those of `image`. -/
structure Represents (v : Fields) (image : Image) : Prop where
  lastConfig : v.lastConfig = image.lastConfig
  currentConfig : v.currentConfig = image.currentConfig
  stateMachine : ∀ shardID, v.shard shardID = some (image.stateMachine shardID)
  lastOperations : v.lastOperations = .of image.lastOperations

/-- The usable values are those that have an image. -/
theorem usable_iff_represents (v : Fields) : v.Usable ↔ ∃ image, v.Represents image := by
  constructor
  · rintro ⟨hshards, hops⟩
    cases h : v.lastOperations with
    | nil => exact absurd h hops
    | of lastOperations =>
      refine ⟨⟨v.lastConfig, v.currentConfig, fun shardID => (v.shard shardID).get (hshards shardID),
        lastOperations⟩, rfl, rfl, fun shardID => ?_, h⟩
      rw [Option.some_get]
  · rintro ⟨image, h⟩
    refine ⟨fun shardID => ?_, ?_⟩
    · rw [h.stateMachine shardID, Option.isSome_some]
    · rw [h.lastOperations]
      simp

namespace Represents

variable {v v' : Fields} {image : Image}

theorem made (h : v.Represents image) : v.Made := by
  refine ⟨fun hnil => ?_, fun shardID hnil => ?_, fun hnil => ?_⟩
  · have hshard := h.stateMachine 0
    rw [Fields.shard, hnil] at hshard
    cases hshard
  · have hshard := h.stateMachine shardID
    rw [Fields.shard, hnil] at hshard
    cases hshard
  · rw [h.lastOperations] at hnil
    cases hnil

/-- No shard is missing. -/
theorem keeps (h : v.Represents image) (hkeeps : v.Keeps v') : v'.Represents image := by
  refine ⟨hkeeps.lastConfig.trans h.lastConfig, hkeeps.currentConfig.trans h.currentConfig,
    fun shardID => ?_, hkeeps.lastOperations.trans h.lastOperations⟩
  rw [← h.stateMachine shardID]
  rcases hkeeps.stateMachine (shardID : ℕ) with heq | ⟨hnone, -⟩
  · rw [shard, shard, heq]
  · have hshard := h.stateMachine shardID
    rw [shard, hnone] at hshard
    cases hshard

end Represents

end Fields

/-! ## The decoder -/

/-- What a call of `Decode` leaves: the value of the variable, whether there was an error, and the
decoder. -/
structure Decoded (σ α : Type) where
  value : α
  failed : Bool
  decoder : σ

/-- The decoder of `labgob`. After an error the variable may hold a part of the value. -/
structure Decoder where
  State : Type
  newDecoder : Data → State
  config : State → Decoded State Config
  stateMachine : State → Decoded State (NilMap ℤ (Option Shard))
  lastOperations : State → Decoded State (NilMap ℤ OperationContext)

namespace Decoder

variable (d : Decoder)

/-- The variables of `restoreSnapshot` after the four calls of `Decode`, and whether one failed. The
calls end at the first error. -/
def decode (snapshot : Data) : Fields × Bool :=
  let lastConfig := d.config (d.newDecoder snapshot)
  if lastConfig.failed then ({ lastConfig := lastConfig.value }, true)
  else
    let currentConfig := d.config lastConfig.decoder
    if currentConfig.failed then
      ({ lastConfig := lastConfig.value, currentConfig := currentConfig.value }, true)
    else
      let stateMachine := d.stateMachine currentConfig.decoder
      if stateMachine.failed then
        ({ lastConfig := lastConfig.value
           currentConfig := currentConfig.value
           stateMachine := stateMachine.value }, true)
      else
        let lastOperations := d.lastOperations stateMachine.decoder
        ({ lastConfig := lastConfig.value
           currentConfig := currentConfig.value
           stateMachine := stateMachine.value
           lastOperations := lastOperations.value }, lastOperations.failed)

/-- The bytes are not empty and all four values can be decoded from them. -/
def Succeeds (snapshot : Data) : Prop := snapshot ≠ [] ∧ (d.decode snapshot).2 = false

instance (snapshot : Data) : Decidable (d.Succeeds snapshot) :=
  inferInstanceAs (Decidable (_ ∧ _))

/-- One of the first three values cannot be decoded. -/
def FailsEarly (snapshot : Data) : Prop :=
  let lastConfig := d.config (d.newDecoder snapshot)
  let currentConfig := d.config lastConfig.decoder
  lastConfig.failed ∨ currentConfig.failed ∨ (d.stateMachine currentConfig.decoder).failed

/-- The decoder reads `labgob`'s image from the bytes. -/
def Reads (labgob : Labgob) (snapshot : Data) : Prop :=
  d.Succeeds snapshot ∧ (d.decode snapshot).1.Represents (labgob.decode snapshot)

/-- A value that was not reached is zero. -/
theorem lastOperations_of_failsEarly {snapshot : Data} (h : d.FailsEarly snapshot) :
    (d.decode snapshot).1.lastOperations = .nil := by
  by_cases hlast : (d.config (d.newDecoder snapshot)).failed
  · simp [decode, hlast]
  by_cases hcurrent : (d.config (d.config (d.newDecoder snapshot)).decoder).failed
  · simp [decode, hlast, hcurrent]
  have hmachine := (h.resolve_left hlast).resolve_left hcurrent
  simp [decode, hlast, hcurrent, hmachine]

end Decoder

/-! ## The server -/

/-- The replicated part of a server, as it is in memory. -/
structure Memory extends Fields where
  gid : ℤ

namespace Memory

variable (d : Decoder) (m : Memory)

/-- The literal of `StartServer`. -/
def new (gid : ℤ) : Memory where
  gid := gid
  lastConfig := defaultConfig
  currentConfig := defaultConfig
  stateMachine := .of fun _ => none
  lastOperations := .of fun _ => none

def shardIDs : List ℤ := (List.finRange NShards).map fun shardID => ((shardID.val : ℕ) : ℤ)

/-- Stops at a nil map, if a shard is missing. -/
def initStateMachines : Option Memory :=
  (m.stateMachine.fill (some newShard) shardIDs).map fun stateMachine =>
    { m with stateMachine := stateMachine }

/-- The error of the decoder is not looked at. -/
def restoreSnapshot (snapshot : Data) : Option Memory :=
  if snapshot.length < 1 then m.initStateMachines
  else some { m with toFields := (d.decode snapshot).1 }

/-- `StartServer`, with the snapshot that the persister holds. -/
def startServer (gid : ℤ) (snapshot : Data) : Option Memory :=
  (new gid).restoreSnapshot d snapshot

/-- A write through the pointer to a shard. -/
def setShard (shardID : ShardId) (shard : Shard) : Memory :=
  { m with
    stateMachine := .of (Function.update m.stateMachine.get (shardID : ℕ) (some (some shard))) }

def isDuplicateRequest (clientId commandId : ℤ) : Bool :=
  isDuplicate m.lastOperations.get clientId commandId

/-- The shard is only used if the group owns it. -/
def canServe (shardID : ShardId) : Option Bool :=
  if m.currentConfig.shards shardID = m.gid then
    (m.shard shardID).map fun shard => shard.status = .serving ∨ shard.status = .gcing
  else some false

def applyLogToStateMachine (operation : CommandArgs) (shardID : ShardId) :
    Option (Memory × CommandReply) :=
  (m.shard shardID).map fun shard =>
    match operation.op with
    | .get => (m, ⟨(shard.get operation.key).2, (shard.get operation.key).1⟩)
    | .put => (m.setShard shardID (shard.put operation.key operation.value), ⟨.ok, []⟩)
    | .append => (m.setShard shardID (shard.append operation.key operation.value), ⟨.ok, []⟩)

/-- The reply kept for the client's last command. -/
def lastReply (clientId : ℤ) : CommandReply :=
  ((m.lastOperations.get clientId).map (·.lastReply)).getD ⟨.ok, []⟩

/-- Remembers the command as the client's last one, unless it is a `Get`. -/
def remember (operation : CommandArgs) (reply : CommandReply) : Option Memory :=
  if operation.op ≠ .get then
    (m.lastOperations.insert operation.clientId ⟨operation.commandId, reply⟩).map
      fun lastOperations => { m with lastOperations := lastOperations }
  else some m

/-- `none`: the operation stops the program. -/
def applyOperation (operation : CommandArgs) : Option (Memory × CommandReply) :=
  (m.canServe (key2shard operation.key)).bind fun serves =>
    if ¬ serves then some (m, ⟨.errWrongGroup, []⟩)
    else if operation.op ≠ .get ∧ m.isDuplicateRequest operation.clientId operation.commandId then
      some (m, m.lastReply operation.clientId)
    else
      (m.applyLogToStateMachine operation (key2shard operation.key)).bind fun r =>
        (r.1.remember operation r.2).map fun m' => (m', r.2)

theorem mem_shardIDs {id : ℤ} : id ∈ shardIDs ↔ ∃ shardID : ShardId, id = (shardID : ℕ) := by
  simp only [shardIDs, List.mem_map, List.mem_finRange, true_and, eq_comm]

/-! ## Restoring -/

variable {d m}

/-- With no snapshot, shards are added and nothing else changes. -/
theorem initStateMachines_spec (h : m.Made) :
    ∃ m', m.initStateMachines = some m' ∧ m'.gid = m.gid ∧ m.Keeps m'.toFields ∧ m'.Usable := by
  cases hsm : m.stateMachine with
  | nil => exact absurd hsm h.stateMachine
  | of f =>
    have hinit : m.initStateMachines = some { m with
        stateMachine := .of fun id =>
          if id ∈ shardIDs then some ((f id).getD (some newShard)) else f id } := by
      rw [initStateMachines, hsm, NilMap.fill_of, Option.map_some]
    refine ⟨_, hinit, rfl, ⟨rfl, rfl, fun id => ?_, rfl⟩, ⟨fun shardID => ?_, h.lastOperations⟩⟩
    · rw [hsm]
      by_cases hid : id ∈ shardIDs
      · cases hf : f id with
        | none => exact .inr ⟨hf, by simp [NilMap.get, hid, hf], mem_shardIDs.1 hid⟩
        | some shard => exact .inl (by simp [NilMap.get, hid, hf])
      · exact .inl (by simp [NilMap.get, hid])
    · have hmem : ((shardID : ℕ) : ℤ) ∈ shardIDs := mem_shardIDs.2 ⟨shardID, rfl⟩
      have hne : f (shardID : ℕ) ≠ some none := by
        have := h.shards shardID
        rwa [hsm] at this
      -- a shard that was there is not nil, and one that was missing is new
      rcases hf : f (shardID : ℕ) with _ | _ | shard
      · simp [Fields.shard, NilMap.get, hmem, hf]
      · exact absurd hf hne
      · simp [Fields.shard, NilMap.get, hmem, hf]

theorem restoreSnapshot_nil : m.restoreSnapshot d [] = m.initStateMachines := rfl

/-- The variables are assigned, whether they were decoded or not. -/
theorem restoreSnapshot_of_ne {snapshot : Data} (h : snapshot ≠ []) :
    m.restoreSnapshot d snapshot = some { m with toFields := (d.decode snapshot).1 } := by
  have hlen : ¬ snapshot.length < 1 := by
    have := List.length_pos_of_ne_nil h
    omega
  rw [restoreSnapshot, if_neg hlen]

/-- The four values are all decoded from the bytes, or, if one of them cannot be, all kept. -/
def AllOrNothing (d : Decoder) (m : Memory) (snapshot : Data) (m' : Memory) : Prop :=
  m'.gid = m.gid ∧
    if d.Succeeds snapshot then m'.toFields = (d.decode snapshot).1 else m.Keeps m'.toFields

/-- There is no snapshot and the server's maps have been made; or there is one, what the four calls
leave in the variables has every shard and a table, and either none of them failed or the variables
hold what the server has already. -/
def Restorable (d : Decoder) (m : Memory) (snapshot : Data) : Prop :=
  (snapshot = [] ∧ m.Made) ∨
    (snapshot ≠ [] ∧ (d.decode snapshot).1.Usable ∧
      (d.Succeeds snapshot ∨ m.Keeps (d.decode snapshot).1))

/-- Without a snapshot the server can go on only if its maps have been made. -/
theorem made_of_initStateMachines {m' : Memory} (hinit : m.initStateMachines = some m')
    (hkeeps : m.Keeps m'.toFields) (husable : m'.Usable) : m.Made := by
  refine ⟨fun hnil => ?_, fun shardID hnone => ?_, ?_⟩
  · -- the first shard that is missing is written to the nil map
    rw [initStateMachines, hnil] at hinit
    cases hinit
  · have hsome := husable.shards shardID
    rcases hkeeps.stateMachine (shardID : ℕ) with heq | ⟨hmissing, -⟩
    · rw [Fields.shard, heq, hnone] at hsome
      cases hsome
    · rw [hnone] at hmissing
      cases hmissing
  · rw [← hkeeps.lastOperations]
    exact husable.lastOperations

/-- **When restoring a snapshot is all or nothing.** The four values are those of the bytes, or the
previous ones if there are no bytes or they cannot be read, and the server can go on with them,
exactly if the snapshot is restorable. -/
theorem restoreSnapshot_all_or_nothing (d : Decoder) (m : Memory) (snapshot : Data) :
    (∃ m', m.restoreSnapshot d snapshot = some m' ∧ AllOrNothing d m snapshot m' ∧ m'.Usable) ↔
      m.Restorable d snapshot := by
  by_cases hne : snapshot = []
  · subst hne
    have hfails : ¬ d.Succeeds [] := fun hs => hs.1 rfl
    simp only [restoreSnapshot_nil, AllOrNothing, if_neg hfails, Restorable]
    constructor
    · rintro ⟨m', hinit, ⟨-, hkeeps⟩, husable⟩
      exact .inl ⟨trivial, made_of_initStateMachines hinit hkeeps husable⟩
    · rintro (⟨-, hmade⟩ | ⟨hne, -⟩)
      · obtain ⟨m', hinit, hgid, hkeeps, husable⟩ := initStateMachines_spec hmade
        exact ⟨m', hinit, ⟨hgid, hkeeps⟩, husable⟩
      · exact absurd rfl hne
  · have hrestored := restoreSnapshot_of_ne (d := d) (m := m) hne
    constructor
    · rintro ⟨m', heq, ⟨-, hfields⟩, husable⟩
      rw [hrestored, Option.some.injEq] at heq
      subst heq
      refine .inr ⟨hne, husable, ?_⟩
      by_cases hs : d.Succeeds snapshot
      · exact .inl hs
      · rw [if_neg hs] at hfields
        exact .inr hfields
    · rintro (⟨hnil, -⟩ | ⟨-, husable, hcases⟩)
      · exact absurd hnil hne
      · refine ⟨_, hrestored, ⟨rfl, ?_⟩, husable⟩
        split
        · rfl
        · rename_i hs
          exact hcases.resolve_left hs

/-- The bytes that `takeSnapshot` hands to raft. -/
def takeSnapshot (encode : Fields → Data) (m : Memory) : Data := encode m.toFields

/-- What a server in order takes can be restored by every server, if the decoder reads back what the
encoder wrote. -/
theorem restorable_takeSnapshot {encode : Fields → Data}
    (hencode : ∀ v : Fields, v.Usable → d.Succeeds (encode v) ∧ (d.decode (encode v)).1 = v)
    (husable : m.Usable) (m₀ : Memory) : m₀.Restorable d (m.takeSnapshot encode) := by
  obtain ⟨hsucceeds, hdecode⟩ := hencode m.toFields husable
  refine .inr ⟨hsucceeds.1, ?_, .inl hsucceeds⟩
  rw [takeSnapshot, hdecode]
  exact husable

/-- A decoder of one byte a value: the configurations are numbered by it and give every shard to
the group of that number, and the maps are those of a server that has just started. -/
def byteDecoder : Decoder where
  State := Data
  newDecoder := id
  config
    | [] => ⟨defaultConfig, true, []⟩
    | b :: rest => ⟨⟨b.toNat, fun _ => b.toNat, ∅⟩, false, rest⟩
  stateMachine
    | [] => ⟨.nil, true, []⟩
    | _ :: rest => ⟨.of fun id => if id ∈ shardIDs then some (some newShard) else none, false, rest⟩
  lastOperations
    | [] => ⟨.nil, true, []⟩
    | _ :: rest => ⟨.of fun _ => none, false, rest⟩

theorem usable_byteDecoder : (byteDecoder.decode [1, 1, 1, 1]).1.Usable := by
  refine ⟨fun shardID => ?_, fun h => by cases h⟩
  have hmem : ((shardID : ℕ) : ℤ) ∈ shardIDs := mem_shardIDs.2 ⟨shardID, rfl⟩
  have hshard : (byteDecoder.decode [1, 1, 1, 1]).1.shard shardID =
      (if ((shardID : ℕ) : ℤ) ∈ shardIDs then some (some newShard) else none).join := rfl
  rw [hshard, if_pos hmem]
  rfl

theorem restoreSnapshot_all_or_nothing_whole :
    (new 1).Restorable byteDecoder [1, 1, 1, 1] ∧
      ∃ m', (new 1).restoreSnapshot byteDecoder [1, 1, 1, 1] = some m' ∧
        AllOrNothing byteDecoder (new 1) [1, 1, 1, 1] m' ∧ m'.Usable := by
  have hr : (new 1).Restorable byteDecoder [1, 1, 1, 1] :=
    .inr ⟨List.cons_ne_nil 1 _, usable_byteDecoder, .inl ⟨List.cons_ne_nil 1 _, rfl⟩⟩
  exact ⟨hr, (restoreSnapshot_all_or_nothing byteDecoder (new 1) [1, 1, 1, 1]).2 hr⟩

/-! ## Snapshots that cannot be decoded -/

/-- After an error in one of the first three values the server has no `lastOperations`. -/
theorem lastOperations_of_restoreSnapshot {snapshot : Data} {m' : Memory} (hne : snapshot ≠ [])
    (hfails : d.FailsEarly snapshot) (h : m.restoreSnapshot d snapshot = some m') :
    m'.lastOperations = .nil := by
  rw [restoreSnapshot_of_ne hne, Option.some.injEq] at h
  subst h
  exact d.lastOperations_of_failsEarly hfails

/-- With no `lastOperations`, a `Put` or an `Append` stops the server unless it is refused. -/
theorem applyOperation_of_nil (hnil : m.lastOperations = .nil) {operation : CommandArgs}
    (hop : operation.op ≠ .get) {r : Memory × CommandReply}
    (h : m.applyOperation operation = some r) : r = (m, ⟨.errWrongGroup, []⟩) := by
  obtain ⟨serves, -, h⟩ := Option.bind_eq_some_iff.1 h
  have hfresh : m.isDuplicateRequest operation.clientId operation.commandId = false := by
    rw [isDuplicateRequest, hnil]
    rfl
  cases serves with
  | false => exact (Option.some.inj h).symm
  | true =>
    rw [if_neg (by simp), if_neg (by simp [hfresh])] at h
    obtain ⟨⟨m₁, reply⟩, hlog, h⟩ := Option.bind_eq_some_iff.1 h
    have hnil₁ : m₁.lastOperations = .nil := by
      obtain ⟨shard, -, hr⟩ := Option.map_eq_some_iff.1 hlog
      cases hcase : operation.op with
      | get => exact absurd hcase hop
      | put =>
        rw [hcase] at hr
        cases hr
        exact hnil
      | append =>
        rw [hcase] at hr
        cases hr
        exact hnil
    rw [remember, if_pos hop, hnil₁] at h
    cases h

/-- The bytes of the two configurations, cut off there: the server is left with the configurations
of the snapshot and no shards, and the next operation on a shard that it owns stops it. -/
theorem restoreSnapshot_all_or_nothing_fails :
    ∃ m', (new 1).restoreSnapshot byteDecoder [1, 1] = some m' ∧
      ¬ AllOrNothing byteDecoder (new 1) [1, 1] m' ∧ ¬ m'.Usable ∧
      m'.stateMachine = .nil ∧ m'.lastOperations = .nil ∧
      ∀ operation, m'.applyOperation operation = none := by
  refine ⟨_, rfl, fun h => ?_, fun h => h.lastOperations rfl, rfl, rfl, fun operation => rfl⟩
  have hkeeps : (new 1).Keeps (byteDecoder.decode [1, 1]).1 := by
    have := h.2
    rwa [if_neg (by decide)] at this
  cases hkeeps.lastOperations

/-! ## The state of `Server` -/

/-- The memory is that of a server in the state `kv`. -/
structure Represents (m : Memory) (kv : ShardKV) : Prop where
  gid : m.gid = kv.gid
  fields : m.toFields.Represents kv.image

namespace Represents

variable {kv : ShardKV}

theorem shard (h : m.Represents kv) (shardID : ShardId) :
    m.shard shardID = some (kv.stateMachine shardID) := h.fields.stateMachine shardID

theorem lastOperations (h : m.Represents kv) : m.lastOperations.get = kv.lastOperations := by
  rw [h.fields.lastOperations]
  rfl

theorem canServe (h : m.Represents kv) (shardID : ShardId) :
    m.canServe shardID = some (decide (kv.canServe shardID)) := by
  have hconfig : m.currentConfig = kv.currentConfig := h.fields.currentConfig
  rw [Memory.canServe, hconfig, h.gid, h.shard]
  by_cases howns : kv.currentConfig.shards shardID = kv.gid
  · simp [ShardKV.canServe, howns]
  · simp [ShardKV.canServe, howns]

theorem setShard (h : m.Represents kv) (shardID : ShardId) (shard : Shard) :
    (m.setShard shardID shard).Represents (kv.setShard shardID shard) := by
  refine ⟨h.gid, h.fields.lastConfig, h.fields.currentConfig, fun id => ?_,
    h.fields.lastOperations⟩
  by_cases hid : id = shardID
  · subst hid
    simp [Fields.shard, NilMap.get, Memory.setShard, ShardKV.setShard, image]
  · have hne : ((id : ℕ) : ℤ) ≠ (shardID : ℕ) := by
      exact_mod_cast Fin.val_ne_of_ne hid
    have hold := h.shard id
    simpa [Fields.shard, NilMap.get, Memory.setShard, ShardKV.setShard, image, hid, hne] using hold

theorem applyLogToStateMachine (h : m.Represents kv) (operation : CommandArgs)
    (shardID : ShardId) :
    ∃ m', m.applyLogToStateMachine operation shardID =
        some (m', (kv.applyLogToStateMachine operation shardID).2) ∧
      m'.Represents (kv.applyLogToStateMachine operation shardID).1 := by
  rw [Memory.applyLogToStateMachine, h.shard, Option.map_some]
  cases hop : operation.op with
  | get =>
    refine ⟨m, ?_, ?_⟩ <;> simp only [ShardKV.applyLogToStateMachine, hop]
    exact h
  | put =>
    refine ⟨_, by simp only [ShardKV.applyLogToStateMachine, hop]; rfl, ?_⟩
    simp only [ShardKV.applyLogToStateMachine, hop]
    exact h.setShard shardID _
  | append =>
    refine ⟨_, by simp only [ShardKV.applyLogToStateMachine, hop]; rfl, ?_⟩
    simp only [ShardKV.applyLogToStateMachine, hop]
    exact h.setShard shardID _

theorem remember (h : m.Represents kv) (operation : CommandArgs) (reply : CommandReply) :
    ∃ m', m.remember operation reply = some m' ∧ m'.Represents (kv.remember operation reply) := by
  by_cases hop : operation.op ≠ .get
  · rw [Memory.remember, ShardKV.remember, if_pos hop, if_pos hop, h.fields.lastOperations]
    exact ⟨_, rfl, h.gid, h.fields.lastConfig, h.fields.currentConfig, h.fields.stateMachine, rfl⟩
  · rw [Memory.remember, ShardKV.remember, if_neg hop, if_neg hop]
    exact ⟨m, rfl, h⟩

/-- An operation does what it does in `Server`, with the same reply. -/
theorem applyOperation (h : m.Represents kv) (operation : CommandArgs) :
    ∃ m', m.applyOperation operation = some (m', (kv.applyOperation operation).2) ∧
      m'.Represents (kv.applyOperation operation).1 := by
  have hdup : m.isDuplicateRequest operation.clientId operation.commandId =
      kv.isDuplicateRequest operation.clientId operation.commandId := by
    rw [Memory.isDuplicateRequest, ShardKV.isDuplicateRequest, h.lastOperations]
  have hreply : m.lastReply operation.clientId = kv.lastReply operation.clientId := by
    rw [Memory.lastReply, ShardKV.lastReply, h.lastOperations]
  rw [Memory.applyOperation, ShardKV.applyOperation, h.canServe, Option.bind_some, hdup, hreply]
  by_cases hserve : kv.canServe (key2shard operation.key)
  · rw [if_neg (by simpa using hserve), if_neg (not_not.2 hserve)]
    split
    · exact ⟨m, rfl, h⟩
    · obtain ⟨m₁, hlog, h₁⟩ := h.applyLogToStateMachine operation (key2shard operation.key)
      obtain ⟨m₂, hremember, h₂⟩ := h₁.remember operation
        (kv.applyLogToStateMachine operation (key2shard operation.key)).2
      refine ⟨m₂, ?_, h₂⟩
      rw [hlog, Option.bind_some, hremember, Option.map_some]
  · rw [if_pos (by simpa using hserve), if_pos hserve]
    exact ⟨m, rfl, h⟩

/-- Restoring does what it does in `Applier`, if the decoder reads the image. -/
theorem restoreSnapshot (h : m.Represents kv) {labgob : Labgob} {snapshot : Data}
    (hreads : snapshot = [] ∨ d.Reads labgob snapshot) :
    ∃ m', m.restoreSnapshot d snapshot = some m' ∧
      m'.Represents (kv.restoreSnapshot labgob snapshot) := by
  rcases hreads with rfl | ⟨⟨hne, -⟩, hfields⟩
  · obtain ⟨m', hinit, hgid, hkeeps, -⟩ := initStateMachines_spec h.fields.made
    exact ⟨m', hinit, hgid.trans h.gid, h.fields.keeps hkeeps⟩
  · rw [restoreSnapshot_of_ne hne, ShardKV.restoreSnapshot,
      if_neg (by simpa [Nat.lt_one_iff] using hne)]
    exact ⟨_, rfl, h.gid, hfields⟩

end Represents

theorem made_new (gid : ℤ) : (new gid).Made := by
  refine ⟨?_, fun shardID => ?_, ?_⟩ <;> simp [new, NilMap.get]

/-- A server starts in the state of `Applier`. -/
theorem startServer_represents {labgob : Labgob} {snapshot : Data}
    (hreads : snapshot = [] ∨ d.Reads labgob snapshot) (gid : ℤ) :
    ∃ m', startServer d gid snapshot = some m' ∧
      m'.Represents (ShardKV.startServer labgob gid snapshot).kv := by
  rcases hreads with rfl | ⟨⟨hne, -⟩, hfields⟩
  · obtain ⟨m', hinit, hgid, hkeeps, husable⟩ := initStateMachines_spec (made_new gid)
    refine ⟨m', hinit, hgid, hkeeps.lastConfig, hkeeps.currentConfig, fun shardID => ?_,
      hkeeps.lastOperations⟩
    -- every shard was missing and is there now, so it is a new one
    have hsome := husable.shards shardID
    rcases hkeeps.stateMachine (shardID : ℕ) with hold | ⟨-, hnew, -⟩
    · rw [Fields.shard, hold] at hsome
      cases hsome
    · rw [Fields.shard, hnew]
      rfl
  · rw [startServer, restoreSnapshot_of_ne hne, ShardKV.startServer, ShardKV.restoreSnapshot,
      if_neg (by simpa [Nat.lt_one_iff] using hne)]
    exact ⟨_, rfl, rfl, hfields⟩

/-! ## Runs of a server -/

/-- What `applier` receives. -/
inductive Message
  | operation (args : CommandArgs)
  | snapshot (data : Data)

/-- What the server does with a message; `none` if it stops. -/
def receive (d : Decoder) (m : Memory) : Message → Option Memory
  | .operation args => (m.applyOperation args).map (·.1)
  | .snapshot data => m.restoreSnapshot d data

/-- The same in the state of `Server`. -/
def follow (labgob : Labgob) (kv : ShardKV) : Message → ShardKV
  | .operation args => (kv.applyOperation args).1
  | .snapshot data => kv.restoreSnapshot labgob data

/-- The snapshots among the messages can be read. -/
def Message.Readable (d : Decoder) (labgob : Labgob) : Message → Prop
  | .operation _ => True
  | .snapshot data => data = [] ∨ d.Reads labgob data

theorem Represents.receive {kv : ShardKV} {labgob : Labgob} (h : m.Represents kv)
    {message : Message} (hreads : message.Readable d labgob) :
    ∃ m', m.receive d message = some m' ∧ m'.Represents (follow labgob kv message) := by
  cases message with
  | operation args =>
    obtain ⟨m', happly, h'⟩ := h.applyOperation args
    exact ⟨m', by rw [Memory.receive, happly, Option.map_some], h'⟩
  | snapshot data => exact h.restoreSnapshot hreads

/-- **A server whose snapshots can be read does not stop**, and goes through the states of
`Server`. -/
theorem Represents.run {kv : ShardKV} {labgob : Labgob} (h : m.Represents kv)
    {messages : List Message} (hreads : ∀ message ∈ messages, message.Readable d labgob) :
    ∃ m', DistSys.run (Memory.receive d) m messages = some m' ∧
      m'.Represents (messages.foldl (follow labgob) kv) := by
  induction messages generalizing m kv with
  | nil => exact ⟨m, rfl, h⟩
  | cons message messages ih =>
    obtain ⟨m₁, hfirst, h₁⟩ := h.receive (hreads message List.mem_cons_self)
    obtain ⟨m₂, hrest, h₂⟩ := ih h₁ fun other hmem => hreads other (List.mem_cons_of_mem _ hmem)
    exact ⟨m₂, run_cons_eq_some.2 ⟨m₁, hfirst, hrest⟩, h₂⟩

end Memory

end ShardKV

end DistSys
