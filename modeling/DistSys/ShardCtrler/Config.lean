import Mathlib.Data.Finmap
import Mathlib.Data.List.Sort
import Mathlib.Data.Fintype.Pi
import Mathlib.Order.Lattice.Nat

/-!
# The configurations of the shard controller

The state machine of `shardctrler/configStateMachine.go`: a list of numbered configurations, each
an assignment of the shards to replica groups.

Go iterates over a map in an order of its own choice, a new one for every `range` statement. The
functions below that range over a map therefore take a `RangeOrder`, which says in which order
the `i`-th `range` statement meets the keys.

* `MemoryConfigStateMachine` — the list of configurations, numbered by position.
* `join`, `leave`, `move`, `query` — the operations.
-/

namespace DistSys.ShardCtrler

/-- The number of shards. -/
abbrev NShards : ℕ := 10

@[instance] theorem neZero_NShards : @NeZero ℕ Zero.ofOfNat0 NShards := ⟨by decide⟩

abbrev ShardId := Fin NShards

/-- A Go map with group identifiers as keys. -/
abbrev GroupMap (β : Type) := Finmap fun _ : ℤ => β

structure Config where
  num : ℕ
  shards : ShardId → ℤ
  groups : GroupMap (List String)
  deriving DecidableEq

/-- Configuration 0: no groups, every shard at the invalid group 0. -/
def defaultConfig : Config := ⟨0, fun _ => 0, ∅⟩

/-- The orders in which the `range` statements of a run meet the keys of a map. -/
structure RangeOrder where
  keys : ℕ → Finset ℤ → List ℤ
  nodup : ∀ i K, (keys i K).Nodup
  mem_keys : ∀ i K g, g ∈ keys i K ↔ g ∈ K

/-- Every `range` statement meets the keys in ascending order. -/
def RangeOrder.ascending : RangeOrder where
  keys _ K := Quot.liftOn K.val (List.insertionSort (· ≤ ·)) fun l l' h =>
    (((List.perm_insertionSort _ l).trans h).trans
      (List.perm_insertionSort _ l').symm).eq_of_pairwise'
      (List.pairwise_insertionSort _ l) (List.pairwise_insertionSort _ l')
  nodup _ K := by
    obtain ⟨⟨l⟩, hl⟩ := K
    exact (List.perm_insertionSort _ l).nodup_iff.2 hl
  mem_keys _ K g := by
    obtain ⟨⟨l⟩, hl⟩ := K
    exact (List.perm_insertionSort _ l).mem_iff

/-- The list of configurations. -/
structure MemoryConfigStateMachine where
  configs : List Config
  head : configs[0]? = some defaultConfig
  num_eq : ∀ {n : ℕ} {c : Config}, configs[n]? = some c → c.num = n

namespace MemoryConfigStateMachine

variable (cf : MemoryConfigStateMachine)

theorem length_pos : 0 < cf.configs.length := by
  by_contra h
  have hhead := cf.head
  rw [List.getElem?_eq_none (Nat.le_of_not_lt h)] at hhead
  cases hhead

def last : Config := cf.configs.getLast (List.ne_nil_of_length_pos cf.length_pos)

/-- The new configuration gets the next number. -/
def push (shards : ShardId → ℤ) (groups : GroupMap (List String)) : MemoryConfigStateMachine where
  configs := cf.configs ++ [⟨cf.configs.length, shards, groups⟩]
  head := by rw [List.getElem?_append_left cf.length_pos, cf.head]
  num_eq {n c} h := by
    rw [List.getElem?_append] at h
    split at h
    · exact cf.num_eq h
    · rename_i hn
      obtain ⟨hlt, rfl⟩ := List.getElem?_eq_some_iff.1 h
      simp only [List.length_singleton] at hlt
      simp only [List.getElem_singleton]
      omega

end MemoryConfigStateMachine

def newMemoryConfigStateMachine : MemoryConfigStateMachine where
  configs := [defaultConfig]
  head := rfl
  num_eq {n c} h := by
    obtain ⟨hlt, rfl⟩ := List.getElem?_eq_some_iff.1 h
    simp only [List.length_singleton, Nat.lt_one_iff] at hlt
    subst hlt
    rfl

/-! ## The shards of each group -/

/-- `group2Shards[gid]`; an absent key reads as the empty slice. -/
def shardsOf (group2Shards : GroupMap (List ShardId)) (gid : ℤ) : List ShardId :=
  (group2Shards.lookup gid).getD []

/-- `group2Shards[gid] = append(group2Shards[gid], shard)`. -/
def addShard (group2Shards : GroupMap (List ShardId)) (gid : ℤ) (shard : ShardId) :
    GroupMap (List ShardId) :=
  group2Shards.insert gid (shardsOf group2Shards gid ++ [shard])

def group2Shards (gids : List ℤ) (shards : ShardId → ℤ) : GroupMap (List ShardId) :=
  (List.finRange NShards).foldl (fun m shard => addShard m (shards shard) shard)
    (gids.foldl (fun m gid => m.insert gid []) ∅)

/-- The group with the fewest shards, the smallest of them; group 0 is not considered, and -1 is
returned if there is no other. -/
def getGIDWithMinimumShards (gids : List ℤ) (group2Shards : GroupMap (List ShardId)) : ℤ :=
  ((gids.insertionSort (· ≤ ·)).foldl
    (fun (index, minShards) gid =>
      if gid ≠ 0 ∧ (shardsOf group2Shards gid).length < minShards then
        (gid, (shardsOf group2Shards gid).length)
      else (index, minShards))
    ((-1 : ℤ), NShards + 1)).1

/-- The group with the most shards, the smallest of them; group 0 as long as it has any. -/
def getGIDWithMaximumShards (gids : List ℤ) (group2Shards : GroupMap (List ShardId)) : ℤ :=
  if shardsOf group2Shards 0 ≠ [] then 0
  else
    ((gids.insertionSort (· ≤ ·)).foldl
      (fun (index, maxShards) gid =>
        if maxShards < ((shardsOf group2Shards gid).length : ℤ) then
          (gid, ((shardsOf group2Shards gid).length : ℤ))
        else (index, maxShards))
      ((-1 : ℤ), (-1 : ℤ))).1

/-- The assignment that the last loop of `Join` and `Leave` writes. -/
def assignShards (gids : List ℤ) (group2Shards : GroupMap (List ShardId)) (shards : ShardId → ℤ) :
    ShardId → ℤ :=
  gids.foldl (fun new gid =>
    (shardsOf group2Shards gid).foldl (fun new shard => Function.update new shard gid) new) shards

/-- The balancing loop of `Join`, for at most `fuel` rounds. Round `i` ranges over the map twice;
taking the first shard of a group without shards would panic. -/
def balance (order : RangeOrder) : ℕ → ℕ → GroupMap (List ShardId) →
    Option (GroupMap (List ShardId))
  | 0, _, _ => none
  | fuel + 1, i, m =>
    let source := getGIDWithMaximumShards (order.keys i m.keys) m
    let target := getGIDWithMinimumShards (order.keys (i + 1) m.keys) m
    if source ≠ 0 ∧ ((shardsOf m source).length : ℤ) - (shardsOf m target).length ≤ 1 then some m
    else
      match shardsOf m source with
      | [] => none
      | shard :: _ =>
        let m' := addShard m target shard
        balance order fuel (i + 2) (m'.insert source (shardsOf m' source).tail)

namespace MemoryConfigStateMachine

variable (cf : MemoryConfigStateMachine)

/-- Adds the groups that are new and balances the shards. -/
def join (order : RangeOrder) (fuel : ℕ) (groups : GroupMap (List String)) :
    Option MemoryConfigStateMachine :=
  let newGroups := (order.keys 0 groups.keys).foldl
    (fun m gid => if gid ∈ m then m else m.insert gid ((groups.lookup gid).getD []))
    cf.last.groups
  (balance order fuel 3 (group2Shards (order.keys 1 newGroups.keys) cf.last.shards)).map fun m =>
    cf.push (assignShards (order.keys 2 m.keys) m fun _ => 0) newGroups

/-- One round of the first loop of `Leave`: the group is removed, its shards become orphans. -/
def leaveGroup (s : GroupMap (List String) × GroupMap (List ShardId) × List ShardId) (gid : ℤ) :
    GroupMap (List String) × GroupMap (List ShardId) × List ShardId :=
  (s.1.erase gid, s.2.1.erase gid, s.2.2 ++ shardsOf s.2.1 gid)

/-- Hands out the orphaned shards, each to the group with the fewest at that point. -/
def adopt (order : RangeOrder) : ℕ → List ShardId → GroupMap (List ShardId) × (ShardId → ℤ) →
    GroupMap (List ShardId) × (ShardId → ℤ)
  | _, [], s => s
  | i, shard :: orphans, s =>
    let gid := getGIDWithMinimumShards (order.keys i s.1.keys) s.1
    adopt order (i + 1) orphans (addShard s.1 gid shard, Function.update s.2 shard gid)

/-- Removes the groups; their shards go to the groups left, or to group 0 if none is. -/
def leave (order : RangeOrder) (gids : List ℤ) : MemoryConfigStateMachine :=
  let s := gids.foldl leaveGroup
    (cf.last.groups, group2Shards (order.keys 0 cf.last.groups.keys) cf.last.shards, [])
  if s.1.keys = ∅ then cf.push (fun _ => 0) s.1
  else
    let t := adopt order 2 s.2.2 (s.2.1, fun _ => 0)
    cf.push (assignShards (order.keys 1 t.1.keys) t.1 t.2) s.1

/-- Assigns one shard to a group. -/
def move (shard : ShardId) (gid : ℤ) : MemoryConfigStateMachine :=
  cf.push (Function.update cf.last.shards shard gid) cf.last.groups

/-- The configuration with the number, the latest if there is none. -/
def query (num : ℤ) : Config :=
  if num < 0 then cf.last else cf.configs.getD num.toNat cf.last

/-- A query that returns the number asked for returns the configuration at that position. -/
theorem getElem?_of_query {n : ℕ} (h : (cf.query n).num = n) :
    cf.configs[n]? = some (cf.query n) := by
  have hq : cf.query n = cf.configs[n]?.getD cf.last := by
    simp [query, List.getD_eq_getElem?_getD]
  rcases hn : cf.configs[n]? with _ | c
  · -- the latest configuration has a smaller number
    have hlast : cf.configs[cf.configs.length - 1]? = some cf.last := by
      rw [last, ← List.getLast?_eq_getElem?, List.getLast?_eq_getLast_of_ne_nil]
    have hpos := cf.length_pos
    have hnum := cf.num_eq hlast
    have hlen := List.getElem?_eq_none_iff.1 hn
    rw [hq, hn, Option.getD_none] at h
    omega
  · rw [hq, hn, Option.getD_some]

end MemoryConfigStateMachine

/-- The commands of the controller. -/
inductive Op where
  | join (groups : GroupMap (List String))
  | leave (gids : List ℤ)
  | move (shard : ShardId) (gid : ℤ)
  | query (num : ℤ)
  deriving DecidableEq

/-- What a command makes of the configurations, with a bound on the rounds of `Join`. -/
def apply (order : RangeOrder) (fuel : ℕ) (cf : MemoryConfigStateMachine) :
    Op → Option MemoryConfigStateMachine
  | .join groups => cf.join order fuel groups
  | .leave gids => some (cf.leave order gids)
  | .move shard gid => some (cf.move shard gid)
  | .query _ => some cf

end DistSys.ShardCtrler
