import DistSys.ShardCtrler.Validity

/-!
# Balanced configurations

`Join` balances every configuration, and from a balanced one it moves shards to the new groups only,
as few as possible. `Leave` hands out the shards of the groups that leave and moves no other: from a
balanced configuration this is as few as possible too, and leads to a balanced one. After a `Move`
it need not: the groups that stay are even exactly if the shards of those that leave are as many as
the others lack.

Main results: `join_balances`, `moves_minimal`, `leave_balances`.
-/

namespace DistSys.ShardCtrler

open MemoryConfigStateMachine

/-- The groups of the configuration share the shards evenly, or there are none and no shard is
assigned. -/
def Config.Balanced (c : Config) : Prop :=
  ((members c.groups).Nonempty ∧ DistSys.Balanced (members c.groups) c.shards) ∨
    (members c.groups = ∅ ∧ ∀ s, c.shards s = 0)

/-- No balanced assignment to the groups of `c'` takes fewer shards from their owners in `c`. -/
def Config.FewestMoves (c c' : Config) : Prop :=
  ∀ shards, DistSys.Balanced (members c'.groups) shards →
    (moved c.shards c'.shards).card ≤ (moved c.shards shards).card

namespace MemoryConfigStateMachine

variable {cf : MemoryConfigStateMachine}

@[simp] theorem last_push (shards : ShardId → ℤ) (groups : GroupMap (List String)) :
    (cf.push shards groups).last = ⟨cf.configs.length, shards, groups⟩ := by
  simp [last, push]

/-- The groups after a `Join` are the old and the new. -/
theorem members_joined (order : RangeOrder) (groups : GroupMap (List String)) :
    members (cf.joined order groups) = members cf.last.groups ∪ members groups := by
  ext g
  rw [mem_members, mem_joined, Finset.mem_union, mem_members, mem_members, and_or_left]

end MemoryConfigStateMachine

/-! ## `Join` -/

/-- **`Join` balances.** From every configuration, whatever the distribution of the shards, a `Join`
that leaves a group ends. It appends one configuration, with the old groups and the new ones; every
shard is with a group, and no group has two shards more than another. -/
theorem join_balances (cf : MemoryConfigStateMachine) (order : RangeOrder) {fuel : ℕ}
    (hfuel : 2 * (NShards + 1) * NShards < fuel) {groups : GroupMap (List String)}
    (hshards : ∀ s, cf.last.shards s = 0 ∨ cf.last.shards s ∈ cf.last.groups)
    (hsome : (members cf.last.groups ∪ members groups).Nonempty) :
    ∃ cf' c, cf.join order fuel groups = some cf' ∧ cf'.configs = cf.configs ++ [c] ∧
      (∀ g, c.groups.lookup g = (cf.last.groups.lookup g).or (groups.lookup g)) ∧
      (∀ s, c.shards s ≠ 0 ∧ c.shards s ∈ c.groups) ∧
      ∀ g ∈ members c.groups, ∀ g' ∈ members c.groups, load c.shards g ≤ load c.shards g' + 1 := by
  rw [← members_joined order] at hsome
  obtain ⟨shards, hjoin, -, hbalanced⟩ := join_spec order hfuel hshards hsome
  refine ⟨_, ⟨cf.configs.length, shards, cf.joined order groups⟩, hjoin, rfl,
    lookup_joined order groups, fun s => ?_, hbalanced.evenly⟩
  exact mem_members.1 (hbalanced.mem s)

/-- Rounds of balancing that start from a balanced configuration move as few shards as possible, to
new groups only. -/
theorem Config.Balanced.moves_of_rounds {c : Config} (h : c.Balanced) {new : Finset ℤ}
    (hzero : (0 : ℤ) ∉ members c.groups ∪ new) {shards : ShardId → ℤ}
    (hrounds : Relation.ReflTransGen (Round (members c.groups ∪ new)) c.shards shards)
    (hall : ∀ s, shards s ∈ members c.groups ∪ new) :
    (∀ s, shards s ≠ c.shards s → shards s ∈ new \ members c.groups) ∧
      ∀ other, DistSys.Balanced (members c.groups ∪ new) other →
        (moved c.shards shards).card ≤ (moved c.shards other).card := by
  rcases h with ⟨-, hbalanced⟩ | ⟨hnone, hshards⟩
  · have hunion : members c.groups ∪ new = members c.groups ∪ (new \ members c.groups) :=
      (Finset.union_sdiff_self_eq_union).symm
    rw [hunion] at hrounds hall ⊢
    have hlevelled := Levelled.of_rounds Finset.disjoint_sdiff hbalanced hrounds
    refine ⟨hlevelled.kept, fun other hother => ?_⟩
    refine card_moved_le Finset.subset_union_right (fun s hs => ?_) hall hlevelled.kept
      (fun g hg g' hg' => hlevelled.ahead g hg g' ?_) hother
    · exact (Finset.mem_sdiff.1 hs).2 (hbalanced.mem s)
    · obtain ⟨hmem, hnot⟩ := Finset.mem_sdiff.1 hg'
      exact (Finset.mem_union.1 hmem).resolve_right hnot
  · -- no shard was assigned, so all move, to groups that are all new
    have hout : ∀ s, c.shards s ∉ members c.groups ∪ new := fun s hs => hzero (hshards s ▸ hs)
    refine ⟨fun s _ => ?_, fun other hother => Finset.card_le_card ?_⟩
    · have hmem := hall s
      rw [hnone, Finset.empty_union] at hmem
      rw [hnone, Finset.sdiff_empty]
      exact hmem
    · exact moved_subset (fun s hs => absurd hs (hout s)) hother.mem

def twoGroups : GroupMap (List String) := Finmap.insert 2 ["b"] (Finmap.singleton 1 ["a"])

/-- Two groups, one of which has all shards. -/
def skewed : MemoryConfigStateMachine := newMemoryConfigStateMachine.push (fun _ => 1) twoGroups

theorem join_balances_skewed :
    ∃ cf' c, skewed.join .ascending 300 (Finmap.singleton 4 ["d"]) = some cf' ∧
      cf'.configs = skewed.configs ++ [c] ∧ load c.shards 1 ≤ load c.shards 4 + 1 := by
  obtain ⟨cf', c, hjoin, hconfigs, hgroups, -, heven⟩ := join_balances skewed .ascending
    (show 2 * (NShards + 1) * NShards < 300 by decide) (by decide +kernel)
    (show (members skewed.last.groups ∪ members (Finmap.singleton 4 ["d"])).Nonempty by
      decide +kernel)
  have hmem : ∀ g : ℤ, g ≠ 0 → (skewed.last.groups.lookup g).or
      ((Finmap.singleton 4 ["d"] : GroupMap (List String)).lookup g) ≠ none →
        g ∈ members c.groups := fun g h0 hsome =>
    mem_members.2 ⟨h0, by_contra fun hg => hsome (hgroups g ▸ Finmap.lookup_eq_none.2 hg)⟩
  exact ⟨cf', c, hjoin, hconfigs, heven 1 (hmem 1 (by decide) (by decide +kernel)) 4
    (hmem 4 (by decide) (by decide +kernel))⟩

/-- A balanced configuration with a group is shared by its groups. -/
theorem Config.Balanced.of_nonempty {c : Config} (h : c.Balanced)
    (hsome : (members c.groups).Nonempty) : DistSys.Balanced (members c.groups) c.shards := by
  rcases h with ⟨-, h⟩ | ⟨hnone, -⟩
  · exact h
  · exact absurd hnone hsome.ne_empty

theorem Config.Balanced.join {cf : MemoryConfigStateMachine} (h : cf.last.Balanced)
    (order : RangeOrder) {fuel : ℕ} (hfuel : 2 * (NShards + 1) * NShards < fuel)
    {groups : GroupMap (List String)}
    (hsome : (members cf.last.groups ∪ members groups).Nonempty) :
    ∃ cf', cf.join order fuel groups = some cf' ∧
      members cf'.last.groups = members cf.last.groups ∪ members groups ∧
      (∀ s, cf'.last.shards s ≠ cf.last.shards s →
        cf'.last.shards s ∈ members groups \ members cf.last.groups) ∧
      cf'.last.Balanced ∧ cf.last.FewestMoves cf'.last := by
  have hshards : ∀ s, cf.last.shards s = 0 ∨ cf.last.shards s ∈ cf.last.groups := by
    intro s
    rcases h with ⟨-, h⟩ | ⟨-, h⟩
    · exact .inr (mem_members.1 (h.mem s)).2
    · exact .inl (h s)
  have hmembers : members (cf.joined order groups) = members cf.last.groups ∪ members groups :=
    members_joined order groups
  rw [← hmembers] at hsome
  obtain ⟨shards, hjoin, hrounds, hnew⟩ := join_spec order hfuel hshards hsome
  have hzero : (0 : ℤ) ∉ members cf.last.groups ∪ members groups :=
    hmembers ▸ zero_notMem_members _
  obtain ⟨hto, hfewest⟩ := h.moves_of_rounds hzero (hmembers ▸ hrounds) (hmembers ▸ hnew.mem)
  refine ⟨_, hjoin, by rw [last_push, hmembers], fun s hs => ?_, ?_, fun other hother => ?_⟩
  · rw [last_push] at hs ⊢
    exact hto s hs
  · rw [last_push]
    exact .inl ⟨hsome, hnew⟩
  · rw [last_push] at hother ⊢
    exact hfewest other (hmembers ▸ hother)

/-! ## `Leave` -/

theorem Config.Balanced.leave {cf : MemoryConfigStateMachine} (h : cf.last.Balanced)
    (order : RangeOrder) {gids : List ℤ}
    (hsome : (members cf.last.groups \ gids.toFinset).Nonempty) :
    members (cf.leave order gids).last.groups = members cf.last.groups \ gids.toFinset ∧
      (∀ s, (cf.leave order gids).last.shards s ≠ cf.last.shards s →
        cf.last.shards s ∈ members cf.last.groups ∩ gids.toFinset) ∧
      (cf.leave order gids).last.Balanced ∧ cf.last.FewestMoves (cf.leave order gids).last := by
  have hbalanced := h.of_nonempty (hsome.mono Finset.sdiff_subset)
  have hmembers : members (cf.remaining gids) = members cf.last.groups \ gids.toFinset :=
    members_remaining gids
  rw [← hmembers] at hsome
  obtain ⟨shards, hleave, hplaces, hall⟩ := leave_spec order hbalanced.mem hsome
  have hkept := fun s hs => eq_of_places (a := s) hplaces hs
  rw [hleave]
  refine ⟨by rw [last_push, hmembers], fun s hs => ?_, ?_, fun other hother => ?_⟩
  · rw [last_push] at hs
    refine Finset.mem_inter.2 ⟨hbalanced.mem s, by_contra fun hstays => hs (hkept s ?_)⟩
    rw [hmembers]
    exact Finset.mem_sdiff.2 ⟨hbalanced.mem s, hstays⟩
  · rw [last_push]
    refine .inl ⟨hsome, hall, evenly_of_places hplaces fun g hg g' hg' => ?_⟩
    rw [hmembers] at hg hg'
    exact hbalanced.evenly g (Finset.mem_sdiff.1 hg).1 g' (Finset.mem_sdiff.1 hg').1
  · rw [last_push] at hother ⊢
    exact Finset.card_le_card (moved_subset hkept hother.mem)

/-- **Minimal movement.** From a balanced configuration, a `Join` that leaves a group adds the
groups it names and moves shards only to those of them that are new; a `Leave` that leaves a group
removes the groups it names and moves only their shards. The result is balanced again, and no
balanced assignment to its groups moves fewer shards. -/
theorem moves_minimal (cf : MemoryConfigStateMachine) (hbalanced : cf.last.Balanced)
    (order : RangeOrder) {fuel : ℕ} (hfuel : 2 * (NShards + 1) * NShards < fuel) :
    (∀ groups, (members cf.last.groups ∪ members groups).Nonempty →
      ∃ cf', cf.join order fuel groups = some cf' ∧
        members cf'.last.groups = members cf.last.groups ∪ members groups ∧
        (∀ s, cf'.last.shards s ≠ cf.last.shards s →
          cf'.last.shards s ∈ members groups \ members cf.last.groups) ∧
        cf'.last.Balanced ∧ cf.last.FewestMoves cf'.last) ∧
    ∀ gids : List ℤ, (members cf.last.groups \ gids.toFinset).Nonempty →
      members (cf.leave order gids).last.groups = members cf.last.groups \ gids.toFinset ∧
        (∀ s, (cf.leave order gids).last.shards s ≠ cf.last.shards s →
          cf.last.shards s ∈ members cf.last.groups ∩ gids.toFinset) ∧
        (cf.leave order gids).last.Balanced ∧ cf.last.FewestMoves (cf.leave order gids).last :=
  ⟨fun _ hsome => hbalanced.join order hfuel hsome, fun _ hsome => hbalanced.leave order hsome⟩

/-- Two groups with five shards each. -/
def halved : MemoryConfigStateMachine :=
  newMemoryConfigStateMachine.push (fun s => if s < 5 then 1 else 2) twoGroups

theorem moves_minimal_halved :
    (∃ cf', halved.join .ascending 300 (Finmap.singleton 3 ["c"]) = some cf' ∧
      members cf'.last.groups = {1, 2, 3} ∧
      cf'.last.Balanced ∧ halved.last.FewestMoves cf'.last) ∧
    members (halved.leave .ascending [2]).last.groups = {1} ∧
      (halved.leave .ascending [2]).last.Balanced := by
  have hbalanced : halved.last.Balanced :=
    .inl ⟨by decide +kernel, by decide +kernel, by decide +kernel⟩
  obtain ⟨hjoin, hleave⟩ := moves_minimal halved hbalanced .ascending
    (show 2 * (NShards + 1) * NShards < 300 by decide)
  obtain ⟨cf', heq, hmembers, -, hbal, hfewest⟩ :=
    hjoin (Finmap.singleton 3 ["c"]) (by decide +kernel)
  obtain ⟨hremaining, -, hleft, -⟩ := hleave [2] (by decide +kernel)
  exact ⟨⟨cf', heq, hmembers.trans (by decide +kernel), hbal, hfewest⟩,
    hremaining.trans (by decide +kernel), hleft⟩

/-! ## Runs -/

/-- A `Join` names at least one group. -/
def JoinNonempty (_ : MemoryConfigStateMachine) (a : RangeOrder × Op) : Prop :=
  match a.2 with
  | .join groups => groups.keys.Nonempty
  | _ => True

instance (cf : MemoryConfigStateMachine) (a : RangeOrder × Op) : Decidable (JoinNonempty cf a) :=
  match a with
  | (_, .join groups) => inferInstanceAs (Decidable groups.keys.Nonempty)
  | (_, .move _ _) => isTrue trivial
  | (_, .leave _) => isTrue trivial
  | (_, .query _) => isTrue trivial

/-- The shards that lose their group in a `Leave` are as many as the groups that stay lack to be at
most one shard behind the largest of them. -/
def EnoughOrphans (cf : MemoryConfigStateMachine) (gids : List ℤ) : Prop :=
  deficit (members (cf.remaining gids)) cf.last.shards ≤
    unplaced (members (cf.remaining gids)) cf.last.shards

instance (cf : MemoryConfigStateMachine) (gids : List ℤ) : Decidable (EnoughOrphans cf gids) :=
  inferInstanceAs (Decidable (_ ≤ _))

theorem JoinNonempty.joinLeavesGroup {cf : MemoryConfigStateMachine} {a : RangeOrder × Op}
    (h : JoinNonempty cf a) : JoinLeavesGroup cf a := by
  obtain ⟨order, op⟩ := a
  cases op with
  | join groups => exact Finset.Nonempty.mono Finset.subset_union_right h
  | leave gids => trivial
  | move shard gid => trivial
  | query num => trivial

/-- **`Leave` and balance.** In every configuration reached by joins of non-empty maps, leaves and
moves onto groups, a `Leave` that leaves a group removes the groups it names and gives every shard
to a remaining group. No remaining group has two shards more than another exactly if enough shards
are handed out. -/
theorem leave_balances {fuel : ℕ} (hfuel : 2 * (NShards + 1) * NShards < fuel)
    {as : List (RangeOrder × Op)} {cf : MemoryConfigStateMachine}
    (hallowed : Along (step fuel) Allowed newMemoryConfigStateMachine as)
    (hjoin : Along (step fuel) JoinNonempty newMemoryConfigStateMachine as)
    (hrun : run (step fuel) newMemoryConfigStateMachine as = some cf) (order : RangeOrder)
    {gids : List ℤ} (hsome : ∃ g ∈ cf.last.groups, g ∉ gids) :
    (∀ g, g ∈ (cf.leave order gids).last.groups ↔ g ∈ cf.last.groups ∧ g ∉ gids) ∧
      (∀ s, (cf.leave order gids).last.shards s ∈ (cf.leave order gids).last.groups) ∧
      ((∀ g ∈ (cf.leave order gids).last.groups, ∀ g' ∈ (cf.leave order gids).last.groups,
        load (cf.leave order gids).last.shards g ≤
          load (cf.leave order gids).last.shards g' + 1) ↔ EnoughOrphans cf gids) := by
  obtain ⟨cf', hrun', hgood⟩ := run_total (fun cf a h hC => good_step hfuel h hC.1 hC.2)
    (hallowed.and (hjoin.mono fun _ _ h => h.joinLeavesGroup)) MemoryConfigStateMachine.good_new
  rw [hrun, Option.some.injEq] at hrun'
  subst hrun'
  obtain ⟨hvalid, hzero⟩ := hgood.last
  obtain ⟨g₀, hg₀, hstays⟩ := hsome
  have hne : ∀ {g}, g ∈ cf.last.groups → g ≠ 0 := fun hg h0 => hzero (h0 ▸ hg)
  have hshards : ∀ s, cf.last.shards s ∈ members cf.last.groups := fun s => by
    have hmem := hvalid.assigned ⟨g₀, Finmap.mem_keys.2 hg₀⟩ s
    exact mem_members.2 ⟨hne hmem, hmem⟩
  have hremains : (members (cf.remaining gids)).Nonempty :=
    ⟨g₀, mem_members.2 ⟨hne hg₀, mem_remaining.2 ⟨hg₀, hstays⟩⟩⟩
  obtain ⟨shards, hleave, hplaces, hall⟩ := leave_spec order hshards hremains
  have hmembers : ∀ {g}, g ∈ cf.remaining gids ↔ g ∈ members (cf.remaining gids) := fun {g} =>
    ⟨fun hg => mem_members.2 ⟨hne (mem_remaining.1 hg).1, hg⟩, fun hg => (mem_members.1 hg).2⟩
  have heven := evenly_iff_of_places hplaces hall
  rw [hleave, last_push]
  refine ⟨fun g => mem_remaining, fun s => hmembers.2 (hall s), fun h => heven.1 ?_, fun h => ?_⟩
  · exact fun g hg g' hg' => h g (hmembers.2 hg) g' (hmembers.2 hg')
  · exact fun g hg g' hg' => heven.2 h g (hmembers.1 hg) g' (hmembers.1 hg')

/-- Three groups join. -/
def threeGroups : List (RangeOrder × Op) :=
  [(.ascending, .join (Finmap.singleton 1 ["a"])), (.ascending, .join (Finmap.singleton 2 ["b"])),
    (.ascending, .join (Finmap.singleton 3 ["c"]))]

/-- Then all shards of group 2 are moved to group 1. -/
def crowdedRun : List (RangeOrder × Op) :=
  threeGroups ++ [(.ascending, .move 1 1), (.ascending, .move 2 1), (.ascending, .move 3 1),
    (.ascending, .move 4 1)]

theorem leave_balances_threeGroups :
    ∃ cf, run (step 300) newMemoryConfigStateMachine threeGroups = some cf ∧
      EnoughOrphans cf [3] ∧
      ∀ g ∈ (cf.leave .ascending [3]).last.groups, ∀ g' ∈ (cf.leave .ascending [3]).last.groups,
        load (cf.leave .ascending [3]).last.shards g ≤
          load (cf.leave .ascending [3]).last.shards g' + 1 := by
  have h : ∃ cf, run (step 300) newMemoryConfigStateMachine threeGroups = some cf ∧
      (1 : ℤ) ∈ cf.last.groups ∧ EnoughOrphans cf [3] := by decide +kernel
  obtain ⟨cf, hrun, hmem, henough⟩ := h
  obtain ⟨-, -, hiff⟩ := leave_balances (show 2 * (NShards + 1) * NShards < 300 by decide)
    (by decide +kernel) (by decide +kernel) hrun .ascending
      ⟨1, hmem, show (1 : ℤ) ∉ [3] by decide⟩
  exact ⟨cf, hrun, henough, hiff.2 henough⟩

/-- After the moves the groups have 7, 0 and 3 shards. When group 3 leaves, its shards go to group
2, which stays four behind group 1. -/
theorem leave_balances_fails :
    ∃ cf, run (step 300) newMemoryConfigStateMachine crowdedRun = some cf ∧
      Along (step 300) Allowed newMemoryConfigStateMachine crowdedRun ∧
      Along (step 300) JoinNonempty newMemoryConfigStateMachine crowdedRun ∧
      (cf.leave .ascending [3]).last.groups.keys = {1, 2} ∧
      load (cf.leave .ascending [3]).last.shards 1 = 7 ∧
      load (cf.leave .ascending [3]).last.shards 2 = 3 := by
  have h : ∃ cf, run (step 300) newMemoryConfigStateMachine crowdedRun = some cf ∧
      (cf.leave .ascending [3]).last.groups.keys = {1, 2} ∧
      load (cf.leave .ascending [3]).last.shards 1 = 7 ∧
      load (cf.leave .ascending [3]).last.shards 2 = 3 := by decide +kernel
  obtain ⟨cf, hrun, hrest⟩ := h
  exact ⟨cf, hrun, by decide +kernel, by decide +kernel, hrest⟩

end DistSys.ShardCtrler
