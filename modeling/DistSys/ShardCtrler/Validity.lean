import DistSys.Lib.Runs
import DistSys.ShardCtrler.Deal

/-!
# Valid configurations

A configuration is valid if every shard belongs to one of its groups, or to group 0 when there are
none. `Leave` and `Move` keep configurations valid, and so does a `Join` that leaves a group. A
`Join` of no groups when there are none does not: the search for the smallest group then answers -1,
and all shards go to a group of that number (`config_valid_fails`).

Main result: `config_valid`.
-/

namespace DistSys.ShardCtrler

variable {m : GroupMap (List ShardId)}

/-- Every shard belongs to a group of the configuration, or to group 0 if there is none. -/
structure Config.Valid (c : Config) : Prop where
  assigned : c.groups.keys.Nonempty → ∀ s, c.shards s ∈ c.groups
  unassigned : c.groups.keys = ∅ → ∀ s, c.shards s = 0

/-! ## `Leave` -/

/-- The map and the orphans while `Leave` removes groups: the orphans are the shards that have lost
their owner. -/
structure Orphaned (m : GroupMap (List ShardId)) (orphans : List ShardId)
    (owner : ShardId → Option ℤ) : Prop where
  deals : Deals m owner
  nodup : orphans.Nodup
  mem : ∀ s, s ∈ orphans ↔ owner s = none

namespace Orphaned

variable {orphans : List ShardId} {owner : ShardId → Option ℤ}

theorem leaveGroup (h : Orphaned m orphans owner) (g : ℤ) :
    Orphaned (m.erase g) (orphans ++ shardsOf m g)
      fun s => if owner s = some g then none else owner s where
  deals := h.deals.erase g
  nodup := by
    refine h.nodup.append (h.deals.nodup g) ?_
    intro s hs hs'
    rw [h.mem] at hs
    rw [h.deals.mem, hs] at hs'
    cases hs'
  mem s := by
    rw [List.mem_append, h.mem, h.deals.mem]
    by_cases hs : owner s = some g <;> simp [hs]

/-- The shards of the groups that leave become orphans. -/
theorem foldl_leaveGroup (gids : List ℤ) (groups : GroupMap (List String))
    (h : Orphaned m orphans owner) :
    Orphaned (gids.foldl MemoryConfigStateMachine.leaveGroup (groups, m, orphans)).2.1
      (gids.foldl MemoryConfigStateMachine.leaveGroup (groups, m, orphans)).2.2
      fun s => (owner s).filter fun g => g ∉ gids := by
  induction gids generalizing groups m orphans owner with
  | nil =>
    have hall : (fun s => (owner s).filter fun g => g ∉ ([] : List ℤ)) = owner := by
      funext s
      cases owner s <;> simp [Option.filter]
    rw [hall]
    exact h
  | cons g gids ih =>
    have hfilter : (fun s => (owner s).filter fun g' => g' ∉ g :: gids) = fun s =>
        (if owner s = some g then none else owner s).filter fun g' => g' ∉ gids := by
      funext s
      cases hs : owner s with
      | none => simp
      | some g' => by_cases hg : g' = g <;> simp [hg, Option.filter]
    rw [hfilter]
    exact ih (groups.erase g) (h.leaveGroup g)

/-- The first orphan is handed out. -/
theorem addShard {s : ShardId} (h : Orphaned m (s :: orphans) owner) (g : ℤ) :
    Orphaned (addShard m g s) orphans (Function.update owner s (some g)) := by
  have hnodup := List.nodup_cons.1 h.nodup
  refine ⟨h.deals.add ((h.mem s).1 List.mem_cons_self) g, hnodup.2, fun s' => ?_⟩
  by_cases hs' : s' = s
  · subst hs'
    simp [hnodup.1]
  · rw [Function.update_of_ne hs', ← h.mem, List.mem_cons, or_iff_right hs']

/-- The orphans are handed out. -/
theorem adopt (order : RangeOrder) (i : ℕ) (h : Orphaned m orphans owner) (new : ShardId → ℤ) :
    ∃ owner' : ShardId → ℤ, Deals (MemoryConfigStateMachine.adopt order i orphans (m, new)).1
      fun s => some (owner' s) := by
  induction orphans generalizing i m owner new with
  | nil =>
    refine ⟨fun s => (owner s).getD 0, ?_⟩
    have howner : (fun s => some ((owner s).getD 0)) = owner := by
      funext s
      cases hs : owner s with
      | none => cases (h.mem s).2 hs
      | some g => rfl
    rw [howner]
    exact h.deals
  | cons s orphans ih => exact ih (i + 1) (h.addShard _) _

/-- What a group that is left has. -/
theorem length_eq (h : Orphaned m orphans owner) {old : ShardId → ℤ} {G : Finset ℤ}
    (hold : ∀ s, owner s = none → old s ∉ G) {g : ℤ} (hg : g ∈ G) :
    (shardsOf m g).length = load (fun s => (owner s).getD (old s)) g := by
  rw [load, ← List.toFinset_card_of_nodup (h.deals.nodup g)]
  congr 1
  ext s
  simp only [List.mem_toFinset, h.deals.mem, Finset.mem_filter, Finset.mem_univ, true_and]
  cases hs : owner s with
  | none =>
    have hne : old s ≠ g := fun he => hold s hs (he ▸ hg)
    simp [hne]
  | some g' => simp

/-- Each orphan is placed with a group that is left. -/
theorem adopt_places (order : RangeOrder) (i : ℕ) (h : Orphaned m orphans owner)
    {old : ShardId → ℤ} {G : Finset ℤ} (hsome : G.Nonempty) (hzero : (0 : ℤ) ∉ G)
    (hkeys : ∀ g ∈ m, g = 0 ∨ g ∈ G) (hgroups : ∀ g ∈ G, g ∈ m)
    (hin : ∀ s g, owner s = some g → g ∈ G) (hold : ∀ s, owner s = none → old s ∉ G)
    (new : ShardId → ℤ) :
    ∃ shards : ShardId → ℤ, Deals (MemoryConfigStateMachine.adopt order i orphans (m, new)).1
        (fun s => some (shards s)) ∧
      Relation.ReflTransGen (Place G) (fun s => (owner s).getD (old s)) shards ∧
      ∀ s, shards s ∈ G := by
  induction orphans generalizing i m owner new with
  | nil =>
    have howner : ∀ s, some ((owner s).getD (old s)) = owner s := by
      intro s
      cases hs : owner s with
      | none => cases (h.mem s).2 hs
      | some g => rfl
    refine ⟨fun s => (owner s).getD (old s), ?_, .refl, fun s => hin s _ (howner s).symm⟩
    rw [show (fun s => some ((owner s).getD (old s))) = owner from funext howner]
    exact h.deals
  | cons s orphans ih =>
    have hmem : ∀ g, g ∈ order.keys i m.keys ↔ g ∈ m := fun g => by
      rw [order.mem_keys, Finmap.mem_keys]
    obtain ⟨g₀, hg₀⟩ := hsome
    obtain ⟨hg, hg0, hmin⟩ := getGIDWithMinimumShards_spec h.deals ((hmem g₀).2 (hgroups g₀ hg₀))
      fun he => hzero (he ▸ hg₀)
    rw [MemoryConfigStateMachine.adopt]
    generalize getGIDWithMinimumShards (order.keys i m.keys) m = gid at hg hg0 hmin ⊢
    have hgid : gid ∈ G := (hkeys gid ((hmem gid).1 hg)).resolve_left hg0
    have hkeys' : ∀ g, g ∈ ShardCtrler.addShard m gid s ↔ g ∈ m := fun g => by
      rw [ShardCtrler.addShard, Finmap.mem_insert]
      exact ⟨fun hg' => hg'.elim (fun he => he ▸ (hmem gid).1 hg) id, .inr⟩
    have hs := (h.mem s).1 List.mem_cons_self
    have hplace : Place G (fun s => (owner s).getD (old s))
        (Function.update (fun s => (owner s).getD (old s)) s gid) := by
      refine ⟨s, gid, ?_, hgid, fun g hgG => ?_⟩
      · rw [hs, Option.getD_none]
        exact hold s hs
      · rw [← h.length_eq hold hgid, ← h.length_eq hold hgG]
        exact hmin g ((hmem g).2 (hgroups g hgG)) fun he => hzero (he ▸ hgG)
    have hnext : (fun s' => (Function.update owner s (some gid) s').getD (old s')) =
        Function.update (fun s => (owner s).getD (old s)) s gid := by
      funext s'
      by_cases hs' : s' = s
      · subst hs'
        simp
      · simp [hs']
    have hold' : ∀ s', Function.update owner s (some gid) s' = none → old s' ∉ G := by
      intro s' hs'
      by_cases he : s' = s
      · rw [he, Function.update_self] at hs'
        cases hs'
      · rw [Function.update_of_ne he] at hs'
        exact hold s' hs'
    have hin' : ∀ s' g, Function.update owner s (some gid) s' = some g → g ∈ G := by
      intro s' g hs'
      by_cases he : s' = s
      · rw [he, Function.update_self] at hs'
        exact Option.some.inj hs' ▸ hgid
      · rw [Function.update_of_ne he] at hs'
        exact hin s' g hs'
    obtain ⟨shards, hdeals, hplaces, hall⟩ := ih (i + 1) (h.addShard gid)
      (fun g hg' => hkeys g ((hkeys' g).1 hg')) (fun g hg' => (hkeys' g).2 (hgroups g hg'))
      hin' hold' (Function.update new s gid)
    rw [hnext] at hplaces
    exact ⟨shards, hdeals, .head hplace hplaces, hall⟩

end Orphaned

theorem orphaned_group2Shards (gids : List ℤ) (shards : ShardId → ℤ) :
    Orphaned (group2Shards gids shards) [] fun s => some (shards s) :=
  ⟨deals_group2Shards gids shards, List.nodup_nil, by simp⟩

/-- The groups that are not asked to leave stay, in both maps. -/
theorem mem_foldl_leaveGroup (gids : List ℤ) (groups : GroupMap (List String))
    (orphans : List ShardId) (g : ℤ) :
    (g ∈ (gids.foldl MemoryConfigStateMachine.leaveGroup (groups, m, orphans)).1 ↔
        g ∈ groups ∧ g ∉ gids) ∧
      (g ∈ (gids.foldl MemoryConfigStateMachine.leaveGroup (groups, m, orphans)).2.1 ↔
        g ∈ m ∧ g ∉ gids) := by
  induction gids generalizing groups m orphans with
  | nil => simp
  | cons g' gids ih =>
    rw [List.foldl_cons, MemoryConfigStateMachine.leaveGroup]
    obtain ⟨h₁, h₂⟩ := ih (m := m.erase g') (groups.erase g') (orphans ++ shardsOf m g')
    rw [h₁, h₂, Finmap.mem_erase, Finmap.mem_erase, List.mem_cons, not_or, and_assoc, and_assoc]
    exact ⟨and_left_comm, and_left_comm⟩

/-! ## The operations -/

/-- The groups of a configuration: 0 is not one, it marks the shards that have none. -/
def members (groups : GroupMap (List String)) : Finset ℤ := groups.keys.erase 0

theorem mem_members {groups : GroupMap (List String)} {g : ℤ} :
    g ∈ members groups ↔ g ≠ 0 ∧ g ∈ groups := by
  rw [members, Finset.mem_erase, Finmap.mem_keys]

theorem zero_notMem_members (groups : GroupMap (List String)) : (0 : ℤ) ∉ members groups :=
  Finset.notMem_erase 0 _

theorem Config.Valid.zero_or_mem {c : Config} (h : c.Valid) (s : ShardId) :
    c.shards s = 0 ∨ c.shards s ∈ c.groups := by
  rcases Finset.eq_empty_or_nonempty c.groups.keys with hnone | hsome
  · exact .inl (h.unassigned hnone s)
  · exact .inr (h.assigned hsome s)

namespace MemoryConfigStateMachine

variable {cf : MemoryConfigStateMachine}

/-! ### `Join` -/

/-- The groups after a `Join`. -/
def joined (cf : MemoryConfigStateMachine) (order : RangeOrder) (groups : GroupMap (List String)) :
    GroupMap (List String) :=
  (order.keys 0 groups.keys).foldl
    (fun m gid => if gid ∈ m then m else m.insert gid ((groups.lookup gid).getD [])) cf.last.groups

/-- The new groups are added, the old ones keep their servers. -/
theorem lookup_joined (order : RangeOrder) (groups : GroupMap (List String)) (g : ℤ) :
    (cf.joined order groups).lookup g = (cf.last.groups.lookup g).or (groups.lookup g) := by
  have hfold : ∀ (gids : List ℤ) (m : GroupMap (List String)), (gids.foldl (fun m gid =>
      if gid ∈ m then m else m.insert gid ((groups.lookup gid).getD [])) m).lookup g =
        (m.lookup g).or (if g ∈ gids then some ((groups.lookup g).getD []) else none) := by
    intro gids
    induction gids with
    | nil => intro m; simp
    | cons gid gids ih =>
      intro m
      rw [List.foldl_cons, ih]
      split
      · rename_i hgid
        obtain ⟨servers, hservers⟩ := Finmap.mem_iff.1 hgid
        by_cases hg : g = gid
        · rw [hg, hservers, Option.some_or, Option.some_or]
        · simp [hg]
      · rename_i hgid
        by_cases hg : g = gid
        · subst hg
          simp [Finmap.lookup_eq_none.2 hgid]
        · simp [hg, Finmap.lookup_insert_of_ne m hg]
  rw [joined, hfold]
  congr 1
  split
  · rename_i hg
    obtain ⟨servers, hservers⟩ := Finmap.mem_iff.1 (Finmap.mem_keys.1 ((order.mem_keys _ _ _).1 hg))
    rw [hservers, Option.getD_some]
  · rename_i hg
    have hnone : groups.lookup g = none := Finmap.lookup_eq_none.2 fun hmem =>
      hg ((order.mem_keys _ _ _).2 (Finmap.mem_keys.2 hmem))
    exact hnone.symm

theorem mem_joined {order : RangeOrder} {groups : GroupMap (List String)} {g : ℤ} :
    g ∈ cf.joined order groups ↔ g ∈ cf.last.groups ∨ g ∈ groups := by
  have hsome : ∀ m : GroupMap (List String), g ∈ m ↔ (m.lookup g).isSome := fun _ =>
    Finmap.lookup_isSome.symm
  rw [hsome, hsome, hsome, lookup_joined, Option.isSome_or, Bool.or_eq_true]

/-- **`Join`**, when it leaves a group: rounds of balancing lead to the new assignment. -/
theorem join_spec (order : RangeOrder) {fuel : ℕ} (hfuel : 2 * (NShards + 1) * NShards < fuel)
    {groups : GroupMap (List String)}
    (hshards : ∀ s, cf.last.shards s = 0 ∨ cf.last.shards s ∈ cf.last.groups)
    (hsome : (members (cf.joined order groups)).Nonempty) :
    ∃ shards, cf.join order fuel groups = some (cf.push shards (cf.joined order groups)) ∧
      Relation.ReflTransGen (Round (members (cf.joined order groups))) cf.last.shards shards ∧
      Balanced (members (cf.joined order groups)) shards := by
  have hdealt : Dealt (members (cf.joined order groups))
      (group2Shards (order.keys 1 (cf.joined order groups).keys) cf.last.shards)
      cf.last.shards := by
    refine ⟨deals_group2Shards _ _, fun g hg => ?_, fun g hg => ?_⟩
    · rw [mem_group2Shards, order.mem_keys, Finmap.mem_keys] at hg
      refine or_iff_not_imp_left.2 fun h0 => mem_members.2 ⟨h0, ?_⟩
      rcases hg with hg | ⟨s, rfl⟩
      · exact hg
      · exact mem_joined.2 (.inl ((hshards s).resolve_left h0))
    · exact mem_group2Shards.2
        (.inl ((order.mem_keys _ _ _).2 (Finmap.mem_keys.2 (mem_members.1 hg).2)))
  obtain ⟨m', shards, hbalance, hdealt', hrounds, hbalanced⟩ := balance_spec order
    (zero_notMem_members _) hsome 3 hdealt (hdealt.weight_le.trans_lt hfuel)
  refine ⟨shards, ?_, hrounds, hbalanced⟩
  have hjoin : cf.join order fuel groups =
      (balance order fuel 3 (group2Shards (order.keys 1 (cf.joined order groups).keys)
        cf.last.shards)).map fun m =>
          cf.push (assignShards (order.keys 2 m.keys) m fun _ => 0) (cf.joined order groups) := rfl
  rw [hjoin, hbalance, Option.map_some, assignShards_order hdealt'.deals]

/-! ### `Leave` -/

/-- The groups after a `Leave`. -/
def remaining (cf : MemoryConfigStateMachine) (gids : List ℤ) : GroupMap (List String) :=
  gids.foldl (fun groups gid => groups.erase gid) cf.last.groups

theorem foldl_leaveGroup_fst (gids : List ℤ)
    (s : GroupMap (List String) × GroupMap (List ShardId) × List ShardId) :
    (gids.foldl leaveGroup s).1 = gids.foldl (fun groups gid => groups.erase gid) s.1 := by
  induction gids generalizing s with
  | nil => rfl
  | cons gid gids ih => exact ih _

theorem mem_remaining {gids : List ℤ} {g : ℤ} :
    g ∈ cf.remaining gids ↔ g ∈ cf.last.groups ∧ g ∉ gids := by
  have hkeys := (mem_foldl_leaveGroup gids (m := ∅) cf.last.groups [] g).1
  rwa [foldl_leaveGroup_fst] at hkeys

theorem members_remaining (gids : List ℤ) :
    members (cf.remaining gids) = members cf.last.groups \ gids.toFinset := by
  ext g
  rw [mem_members, mem_remaining, Finset.mem_sdiff, mem_members, List.mem_toFinset, and_assoc]

theorem leave_eq (order : RangeOrder) (gids : List ℤ) :
    cf.leave order gids =
      let s := gids.foldl leaveGroup
        (cf.last.groups, group2Shards (order.keys 0 cf.last.groups.keys) cf.last.shards, [])
      if (cf.remaining gids).keys = ∅ then cf.push (fun _ => 0) (cf.remaining gids)
      else
        let t := adopt order 2 s.2.2 (s.2.1, fun _ => 0)
        cf.push (assignShards (order.keys 1 t.1.keys) t.1 t.2) (cf.remaining gids) := by
  rw [MemoryConfigStateMachine.leave, foldl_leaveGroup_fst]
  rfl

/-- **`Leave`**, when it leaves a group: the shards of the groups that leave are placed with those
that stay. -/
theorem leave_spec (order : RangeOrder) {gids : List ℤ}
    (hshards : ∀ s, cf.last.shards s ∈ members cf.last.groups)
    (hsome : (members (cf.remaining gids)).Nonempty) :
    ∃ shards, cf.leave order gids = cf.push shards (cf.remaining gids) ∧
      Relation.ReflTransGen (Place (members (cf.remaining gids))) cf.last.shards shards ∧
      ∀ s, shards s ∈ members (cf.remaining gids) := by
  have hne : (cf.remaining gids).keys ≠ ∅ := by
    obtain ⟨g, hg⟩ := hsome
    exact Finset.nonempty_iff_ne_empty.1 ⟨g, Finmap.mem_keys.2 (mem_members.1 hg).2⟩
  have horphaned :=
    (orphaned_group2Shards (order.keys 0 cf.last.groups.keys) cf.last.shards).foldl_leaveGroup gids
      cf.last.groups
  have hkeys := fun g => (mem_foldl_leaveGroup gids
    (m := group2Shards (order.keys 0 cf.last.groups.keys) cf.last.shards) cf.last.groups [] g).2
  have hsame : ∀ g, g ∈ group2Shards (order.keys 0 cf.last.groups.keys) cf.last.shards ↔
      g ∈ cf.last.groups := by
    intro g
    rw [mem_group2Shards, order.mem_keys, Finmap.mem_keys]
    constructor
    · rintro (hg | ⟨s, rfl⟩)
      · exact hg
      · exact (mem_members.1 (hshards s)).2
    · exact .inl
  -- an orphan is still counted with the group that has left
  have howner : (fun s => ((some (cf.last.shards s)).filter fun g => g ∉ gids).getD
      (cf.last.shards s)) = cf.last.shards := by
    funext s
    by_cases hg : cf.last.shards s ∈ gids <;> simp [hg, Option.filter]
  have hin : ∀ s g, ((some (cf.last.shards s)).filter fun g => g ∉ gids) = some g →
      g ∈ members (cf.remaining gids) := by
    intro s g hs
    obtain ⟨heq, hg⟩ := Option.filter_eq_some_iff.1 hs
    rw [Option.some.injEq] at heq
    rw [members_remaining, Finset.mem_sdiff, List.mem_toFinset, ← heq]
    exact ⟨hshards s, by simpa [heq] using hg⟩
  have hold : ∀ s, ((some (cf.last.shards s)).filter fun g => g ∉ gids) = none →
      cf.last.shards s ∉ members (cf.remaining gids) := by
    intro s hs hg
    have hgone := (mem_remaining.1 (mem_members.1 hg).2).2
    simp [Option.filter, hgone] at hs
  obtain ⟨shards, hdeals, hplaces, hall⟩ := horphaned.adopt_places order 2 hsome
    (zero_notMem_members _) (fun g hg => or_iff_not_imp_left.2 fun h0 =>
      mem_members.2 ⟨h0, mem_remaining.2 (by rwa [hkeys, hsame] at hg)⟩)
    (fun g hg => by rw [hkeys, hsame]; exact mem_remaining.1 (mem_members.1 hg).2) hin hold
    fun _ => 0
  rw [howner] at hplaces
  refine ⟨shards, ?_, hplaces, hall⟩
  rw [leave_eq]
  simp only [if_neg hne]
  rw [assignShards_order hdeals]

/-! ### Valid configurations -/

/-- All configurations are valid, and none has a group 0. -/
def Good (cf : MemoryConfigStateMachine) : Prop :=
  ∀ c ∈ cf.configs, c.Valid ∧ (0 : ℤ) ∉ c.groups

theorem Good.last (h : cf.Good) : cf.last.Valid ∧ (0 : ℤ) ∉ cf.last.groups :=
  h _ (List.getLast_mem _)

theorem Good.push (h : cf.Good) {shards : ShardId → ℤ} {groups : GroupMap (List String)}
    (hzero : (0 : ℤ) ∉ groups) (hassigned : groups.keys.Nonempty → ∀ s, shards s ∈ groups)
    (hunassigned : groups.keys = ∅ → ∀ s, shards s = 0) : (cf.push shards groups).Good := by
  intro c hc
  rcases List.mem_append.1 hc with hc | hc
  · exact h c hc
  · rw [List.mem_singleton.1 hc]
    exact ⟨⟨hassigned, hunassigned⟩, hzero⟩

theorem good_new : newMemoryConfigStateMachine.Good := by
  intro c hc
  rw [List.mem_singleton.1 hc]
  refine ⟨⟨fun h => ?_, fun _ _ => rfl⟩, Finmap.notMem_empty⟩
  simp [defaultConfig] at h

theorem Good.move (h : cf.Good) (shard : ShardId) {gid : ℤ} (hgid : gid ∈ cf.last.groups) :
    (cf.move shard gid).Good := by
  refine h.push h.last.2 (fun hsome s => ?_) fun hnone => ?_
  · by_cases hs : s = shard
    · rw [hs, Function.update_self]
      exact hgid
    · rw [Function.update_of_ne hs]
      exact h.last.1.assigned hsome s
  · rw [← Finmap.mem_keys, hnone] at hgid
    cases hgid

theorem Good.leave (h : cf.Good) (order : RangeOrder) (gids : List ℤ) :
    (cf.leave order gids).Good := by
  obtain ⟨hvalid, hzero⟩ := h.last
  have hzero' : (0 : ℤ) ∉ cf.remaining gids := fun h0 => hzero (mem_remaining.1 h0).1
  rcases Finset.eq_empty_or_nonempty (cf.remaining gids).keys with hnone | hsome
  · rw [leave_eq, if_pos hnone]
    exact h.push hzero' (fun hsome => absurd hnone hsome.ne_empty) fun _ _ => rfl
  · have hmembers : ∀ {groups : GroupMap (List String)}, (0 : ℤ) ∉ groups →
        members groups = groups.keys := fun h0 =>
      Finset.erase_eq_of_notMem fun hk => h0 (Finmap.mem_keys.1 hk)
    have hsome₀ : cf.last.groups.keys.Nonempty := by
      obtain ⟨g, hg⟩ := hsome
      exact ⟨g, Finmap.mem_keys.2 (mem_remaining.1 (Finmap.mem_keys.1 hg)).1⟩
    have hremains : (members (cf.remaining gids)).Nonempty := by
      rw [hmembers hzero']
      exact hsome
    obtain ⟨shards, hleave, -, hmem⟩ := leave_spec order
      (fun s => by rw [hmembers hzero]; exact Finmap.mem_keys.2 (hvalid.assigned hsome₀ s)) hremains
    rw [hleave]
    refine h.push hzero' (fun _ s => ?_) fun hnone => absurd hnone hsome.ne_empty
    exact (mem_members.1 (hmem s)).2

/-- A `Join` that leaves a group ends, and its configuration is valid. -/
theorem Good.join (h : cf.Good) (order : RangeOrder) {fuel : ℕ}
    (hfuel : 2 * (NShards + 1) * NShards < fuel) {groups : GroupMap (List String)}
    (hgroups : (0 : ℤ) ∉ groups) (hsome : (cf.last.groups.keys ∪ groups.keys).Nonempty) :
    ∃ cf', cf.join order fuel groups = some cf' ∧ cf'.Good := by
  obtain ⟨hvalid, hzero⟩ := h.last
  have hzero' : (0 : ℤ) ∉ cf.joined order groups := fun h0 =>
    (mem_joined.1 h0).elim hzero hgroups
  have hmembers : (members (cf.joined order groups)).Nonempty := by
    obtain ⟨g, hg⟩ := hsome
    rw [Finset.mem_union, Finmap.mem_keys, Finmap.mem_keys] at hg
    have hjoined : g ∈ cf.joined order groups := mem_joined.2 hg
    exact ⟨g, mem_members.2 ⟨fun h0 => hzero' (h0 ▸ hjoined), hjoined⟩⟩
  obtain ⟨shards, hjoin, -, hbalanced⟩ := join_spec order hfuel hvalid.zero_or_mem hmembers
  refine ⟨_, hjoin, h.push hzero' (fun _ s => ?_) fun hnone => ?_⟩
  · exact (mem_members.1 (hbalanced.mem s)).2
  · obtain ⟨g, hg⟩ := hmembers
    rw [members, hnone] at hg
    cases hg

end MemoryConfigStateMachine

/-! ## Runs -/

/-- A command of the controller, with the orders in which it ranges over maps. -/
def step (fuel : ℕ) (cf : MemoryConfigStateMachine) (a : RangeOrder × Op) :
    Option MemoryConfigStateMachine :=
  apply a.1 fuel cf a.2

/-- Groups other than 0 join, and shards move to groups of the latest configuration. -/
def Allowed (cf : MemoryConfigStateMachine) (a : RangeOrder × Op) : Prop :=
  match a.2 with
  | .join groups => (0 : ℤ) ∉ groups
  | .move _ gid => gid ∈ cf.last.groups
  | _ => True

/-- A `Join` leaves at least one group. -/
def JoinLeavesGroup (cf : MemoryConfigStateMachine) (a : RangeOrder × Op) : Prop :=
  match a.2 with
  | .join groups => (cf.last.groups.keys ∪ groups.keys).Nonempty
  | _ => True

instance (cf : MemoryConfigStateMachine) (a : RangeOrder × Op) : Decidable (Allowed cf a) :=
  match a with
  | (_, .join groups) => inferInstanceAs (Decidable ((0 : ℤ) ∉ groups))
  | (_, .move _ gid) => inferInstanceAs (Decidable (gid ∈ cf.last.groups))
  | (_, .leave _) => isTrue trivial
  | (_, .query _) => isTrue trivial

instance (cf : MemoryConfigStateMachine) (a : RangeOrder × Op) : Decidable (JoinLeavesGroup cf a) :=
  match a with
  | (_, .join groups) => inferInstanceAs (Decidable (cf.last.groups.keys ∪ groups.keys).Nonempty)
  | (_, .move _ _) => isTrue trivial
  | (_, .leave _) => isTrue trivial
  | (_, .query _) => isTrue trivial

theorem good_step {fuel : ℕ} (hfuel : 2 * (NShards + 1) * NShards < fuel)
    {cf : MemoryConfigStateMachine} {a : RangeOrder × Op} (h : cf.Good) (hallowed : Allowed cf a)
    (hgroup : JoinLeavesGroup cf a) : ∃ cf', step fuel cf a = some cf' ∧ cf'.Good := by
  obtain ⟨order, op⟩ := a
  cases op with
  | join groups => exact h.join order hfuel hallowed hgroup
  | leave gids => exact ⟨_, rfl, h.leave order gids⟩
  | move shard gid => exact ⟨_, rfl, h.move shard hallowed⟩
  | query num => exact ⟨_, rfl, h⟩

/-- **Configuration validity.** From the first configuration on, every sequence of commands in which
each `Join` leaves a group runs through, whatever the orders in which the maps are met, and all
configurations it makes are numbered by position and valid. -/
theorem config_valid {fuel : ℕ} (hfuel : 2 * (NShards + 1) * NShards < fuel)
    {as : List (RangeOrder × Op)}
    (hallowed : Along (step fuel) Allowed newMemoryConfigStateMachine as)
    (hgroup : Along (step fuel) JoinLeavesGroup newMemoryConfigStateMachine as) :
    ∃ cf, run (step fuel) newMemoryConfigStateMachine as = some cf ∧
      ∀ (n : ℕ) (c : Config), cf.configs[n]? = some c → c.num = n ∧ c.Valid := by
  obtain ⟨cf, hrun, hgood⟩ := run_total (fun cf a h hC => good_step hfuel h hC.1 hC.2)
    (hallowed.and hgroup) MemoryConfigStateMachine.good_new
  exact ⟨cf, hrun, fun n c hc => ⟨cf.num_eq hc, (hgood c (List.mem_of_getElem? hc)).1⟩⟩

/-- Two groups join, a shard is moved, one group leaves and then the other. -/
def movedRun : List (RangeOrder × Op) :=
  [(.ascending, .join (Finmap.singleton 1 ["a"])), (.ascending, .join (Finmap.singleton 2 ["b"])),
    (.ascending, .move 0 2), (.ascending, .leave [1, 3]), (.ascending, .leave [2, 2]),
    (.ascending, .query 1)]

theorem config_valid_movedRun :
    ∃ cf, run (step 300) newMemoryConfigStateMachine movedRun = some cf ∧ cf.configs.length = 6 ∧
      ∀ (n : ℕ) (c : Config), cf.configs[n]? = some c → c.num = n ∧ c.Valid := by
  obtain ⟨cf, hrun, hvalid⟩ := config_valid
    (show 2 * (NShards + 1) * NShards < 300 by decide)
    (show Along (step 300) Allowed newMemoryConfigStateMachine movedRun by decide +kernel)
    (by decide +kernel)
  have hlength : ((run (step 300) newMemoryConfigStateMachine movedRun).map
      fun cf => cf.configs.length) = some 6 := by decide +kernel
  rw [hrun, Option.map_some, Option.some.injEq] at hlength
  exact ⟨cf, hrun, hlength, hvalid⟩

/-- A `Join` of no groups on a fresh controller gives all shards to a group -1 that does not
exist. -/
theorem config_valid_fails :
    ∃ (cf : MemoryConfigStateMachine) (c : Config),
      run (step 300) newMemoryConfigStateMachine [(.ascending, .join ∅)] = some cf ∧
      Along (step 300) Allowed newMemoryConfigStateMachine [(.ascending, .join ∅)] ∧
      cf.configs[1]? = some c ∧ c.groups.keys = ∅ ∧ (∀ s, c.shards s = -1) ∧ ¬ c.Valid := by
  have h : ∃ cf : MemoryConfigStateMachine,
      run (step 300) newMemoryConfigStateMachine [(.ascending, .join ∅)] = some cf ∧
      ∃ c : Config, cf.configs[1]? = some c ∧ c.groups.keys = ∅ ∧ ∀ s, c.shards s = -1 := by
    decide +kernel
  obtain ⟨cf, hrun, c, hc, hnone, hshards⟩ := h
  refine ⟨cf, c, hrun, by decide +kernel, hc, hnone, hshards, fun hvalid => ?_⟩
  have h0 := hvalid.unassigned hnone 0
  rw [hshards] at h0
  cases h0

end DistSys.ShardCtrler
