import DistSys.ShardCtrler.Validity
import Mathlib.Data.List.Perm.Basic

/-!
# Replicas of the shard controller agree

The order in which Go meets the keys of a map has no influence on the configurations. Three things
see to it:

* The two searches sort the keys before they scan them.
* The loops that build a map write every key at most once, or always the same value.
* The loop that rebuilds the assignment meets every shard once, because the slices of the map are a
  deal (`Deals`).

`Join` also ends whatever groups there are: with none at all, group 0 hands its shards to the
invalid group -1 (`balance_total`).

Main result: `replicas_agree`.
-/

namespace DistSys.ShardCtrler

variable {m : GroupMap (List ShardId)} {gids gids' : List ℤ}

/-! ## Ranging over a map -/

theorem RangeOrder.perm (order order' : RangeOrder) (i j : ℕ) (K : Finset ℤ) :
    (order.keys i K).Perm (order'.keys j K) :=
  (List.perm_ext_iff_of_nodup (order.nodup i K) (order'.nodup j K)).2 fun g => by
    rw [order.mem_keys, order'.mem_keys]

theorem insertionSort_perm (h : gids.Perm gids') :
    gids.insertionSort (· ≤ ·) = gids'.insertionSort (· ≤ ·) :=
  (((List.perm_insertionSort _ gids).trans h).trans
    (List.perm_insertionSort _ gids').symm).eq_of_pairwise'
    (List.pairwise_insertionSort _ gids) (List.pairwise_insertionSort _ gids')

theorem getGIDWithMinimumShards_perm (h : gids.Perm gids') :
    getGIDWithMinimumShards gids m = getGIDWithMinimumShards gids' m := by
  rw [getGIDWithMinimumShards, insertionSort_perm h, ← getGIDWithMinimumShards]

theorem getGIDWithMaximumShards_perm (h : gids.Perm gids') :
    getGIDWithMaximumShards gids m = getGIDWithMaximumShards gids' m := by
  rw [getGIDWithMaximumShards, insertionSort_perm h, ← getGIDWithMaximumShards]

/-- Entries that depend on the key only can be written in any order. -/
theorem insert_comm {β : Type} (m : GroupMap β) (f : ℤ → β) (g g' : ℤ) :
    (m.insert g (f g)).insert g' (f g') = (m.insert g' (f g')).insert g (f g) := by
  by_cases hg : g = g'
  · rw [hg]
  · exact Finmap.insert_insert_of_ne m hg

theorem group2Shards_perm (h : gids.Perm gids') (shards : ShardId → ℤ) :
    group2Shards gids shards = group2Shards gids' shards := by
  rw [group2Shards, group2Shards,
    h.foldl_eq' fun g _ g' _ m => insert_comm m (fun _ => []) g g']

theorem joined_perm (h : gids.Perm gids') (groups m : GroupMap (List String)) :
    gids.foldl (fun m gid => if gid ∈ m then m else m.insert gid ((groups.lookup gid).getD [])) m =
      gids'.foldl (fun m gid => if gid ∈ m then m else m.insert gid ((groups.lookup gid).getD []))
        m := by
  refine h.foldl_eq' (fun g _ g' _ m => ?_) m
  by_cases heq : g = g'
  · rw [heq]
  · have heq' : g' ≠ g := Ne.symm heq
    have hcomm := insert_comm m (fun gid => (groups.lookup gid).getD []) g g'
    by_cases hg : g ∈ m <;> by_cases hg' : g' ∈ m <;>
      simp [hg, hg', heq, heq', Finmap.mem_insert, hcomm]

theorem lookup_foldl_insert {β : Type} (f : ℤ → β) (m : GroupMap β) (g : ℤ) :
    (gids.foldl (fun m gid => m.insert gid (f gid)) m).lookup g =
      if g ∈ gids then some (f g) else m.lookup g := by
  induction gids generalizing m with
  | nil => rfl
  | cons gid gids ih =>
    rw [List.foldl_cons, ih]
    by_cases hg : g = gid
    · subst hg
      simp
    · simp [hg, Finmap.lookup_insert_of_ne m hg]

/-- `deepCopy`, which `Join`, `Leave` and `Move` make their groups with. -/
def deepCopy (gids : List ℤ) (groups : GroupMap (List String)) : GroupMap (List String) :=
  gids.foldl (fun newGroups gid => newGroups.insert gid ((groups.lookup gid).getD [])) ∅

/-- The copy has the same entries, whatever the order, so that the operations can be read as
starting from the groups themselves. -/
theorem deepCopy_eq (order : RangeOrder) (i : ℕ) (groups : GroupMap (List String)) :
    deepCopy (order.keys i groups.keys) groups = groups := by
  refine Finmap.ext_lookup fun g => ?_
  have hmem : g ∈ order.keys i groups.keys ↔ g ∈ groups := by
    rw [order.mem_keys, Finmap.mem_keys]
  rw [deepCopy, lookup_foldl_insert, Finmap.lookup_empty]
  split
  · rename_i hg
    obtain ⟨servers, hservers⟩ := Finmap.mem_iff.1 (hmem.1 hg)
    rw [hservers, Option.getD_some]
  · rename_i hg
    exact (Finmap.lookup_eq_none.2 (mt hmem.2 hg)).symm

/-! ## The loops -/

theorem balance_order (order order' : RangeOrder) (fuel i j : ℕ) (m : GroupMap (List ShardId)) :
    balance order fuel i m = balance order' fuel j m := by
  induction fuel generalizing i j m with
  | zero => rfl
  | succ fuel ih =>
    rw [balance, balance, getGIDWithMaximumShards_perm (order.perm order' i j m.keys),
      getGIDWithMinimumShards_perm (order.perm order' (i + 1) (j + 1) m.keys)]
    simp only [ih (i + 2) (j + 2)]

theorem adopt_order (order order' : RangeOrder) (i j : ℕ) (orphans : List ShardId)
    (s : GroupMap (List ShardId) × (ShardId → ℤ)) :
    MemoryConfigStateMachine.adopt order i orphans s =
      MemoryConfigStateMachine.adopt order' j orphans s := by
  induction orphans generalizing i j s with
  | nil => rfl
  | cons shard orphans ih =>
    rw [MemoryConfigStateMachine.adopt, MemoryConfigStateMachine.adopt,
      getGIDWithMinimumShards_perm (order.perm order' i j s.1.keys)]
    exact ih _ _ _

/-- The balancing loop ends when there is any group other than 0 in the map. -/
theorem balance_of_key (order : RangeOrder) {fuel : ℕ} (hfuel : 2 * (NShards + 1) * NShards < fuel)
    (i : ℕ) {owner : ShardId → ℤ} (h : Deals m fun s => some (owner s)) {g : ℤ} (hg : g ∈ m)
    (h0 : g ≠ 0) : ∃ (m' : GroupMap (List ShardId)) (owner' : ShardId → ℤ),
      balance order fuel i m = some m' ∧ Deals m' fun s => some (owner' s) := by
  have hdealt : Dealt (m.keys.erase 0) m owner := by
    refine ⟨h, fun g' hg' => ?_, fun g' hg' => Finmap.mem_keys.1 (Finset.mem_of_mem_erase hg')⟩
    exact or_iff_not_imp_left.2 fun hne => Finset.mem_erase.2 ⟨hne, Finmap.mem_keys.2 hg'⟩
  obtain ⟨m', owner', hbalance, hdealt', -⟩ := balance_spec order (Finset.notMem_erase 0 m.keys)
    ⟨g, Finset.mem_erase.2 ⟨h0, Finmap.mem_keys.2 hg⟩⟩ i hdealt (hdealt.weight_le.trans_lt hfuel)
  exact ⟨m', owner', hbalance, hdealt'.deals⟩

/-- Without another group, the search for the fewest shards gives the invalid group -1. -/
theorem getGIDWithMinimumShards_of_no_key (h : ∀ g ∈ gids, g = 0) :
    getGIDWithMinimumShards gids m = -1 := by
  rw [getGIDWithMinimumShards_eq]
  rcases selectLeast_cases (p := fun gid : ℤ => gid ≠ 0)
      (f := fun gid => (shardsOf m gid).length) (gids.insertionSort (· ≤ ·))
      ((-1 : ℤ), NShards + 1) with ⟨heq, -⟩ | ⟨g, hg, hg0, -⟩
  · rw [heq]
  · exact absurd (h g ((List.perm_insertionSort _ gids).mem_iff.1 hg)) hg0

/-- The balancing loop ends: in a map without other groups, group 0 gives its first shard to group
-1, which then is one. -/
theorem balance_total (order : RangeOrder) {fuel : ℕ}
    (hfuel : 2 * (NShards + 1) * NShards + 1 < fuel) (i : ℕ) {owner : ShardId → ℤ}
    (h : Deals m fun s => some (owner s)) :
    ∃ (m' : GroupMap (List ShardId)) (owner' : ShardId → ℤ),
      balance order fuel i m = some m' ∧ Deals m' fun s => some (owner' s) := by
  by_cases hkey : ∃ g ∈ m, g ≠ 0
  · obtain ⟨g, hg, h0⟩ := hkey
    exact balance_of_key order (Nat.lt_of_succ_lt hfuel) i h hg h0
  have hzero : ∀ g ∈ m, g = 0 := fun g hg => by_contra fun h0 => hkey ⟨g, hg, h0⟩
  obtain ⟨fuel, rfl⟩ : ∃ k, fuel = k + 1 := ⟨fuel - 1, by omega⟩
  have hfirst : (0 : ShardId) ∈ shardsOf m 0 :=
    h.mem.2 (by rw [hzero (owner 0) (h.key rfl)])
  obtain ⟨s, rest, hslice⟩ := List.exists_cons_of_ne_nil (List.ne_nil_of_mem hfirst)
  have htarget : getGIDWithMinimumShards (order.keys (i + 1) m.keys) m = -1 :=
    getGIDWithMinimumShards_of_no_key fun g hg =>
      hzero g (Finmap.mem_keys.1 ((order.mem_keys _ _ _).1 hg))
  have hsource : getGIDWithMaximumShards (order.keys i m.keys) m = 0 := by
    rw [getGIDWithMaximumShards, if_pos (List.ne_nil_of_mem hfirst)]
  rw [balance, htarget, hsource]
  simp only [ne_eq, not_true_eq_false, false_and, if_false, hslice]
  refine balance_of_key order (by omega) (i + 2) (h.move_some (by decide) hslice) (g := -1) ?_
    (by decide)
  exact Finmap.mem_insert.2 (.inr (Finmap.mem_insert.2 (.inl rfl)))

/-! ## The operations -/

namespace MemoryConfigStateMachine

variable (cf : MemoryConfigStateMachine)

theorem join_order {fuel : ℕ} (hfuel : 2 * (NShards + 1) * NShards + 1 < fuel)
    (groups : GroupMap (List String)) :
    ∃ cf', ∀ order, cf.join order fuel groups = some cf' := by
  let new := RangeOrder.ascending.keys 0 groups.keys |>.foldl
    (fun m gid => if gid ∈ m then m else m.insert gid ((groups.lookup gid).getD [])) cf.last.groups
  have hnew : ∀ order : RangeOrder, (order.keys 0 groups.keys).foldl
      (fun m gid => if gid ∈ m then m else m.insert gid ((groups.lookup gid).getD []))
      cf.last.groups = new := fun order => joined_perm (order.perm _ 0 0 _) groups _
  obtain ⟨m, owner, hbalance, hdeals⟩ := balance_total RangeOrder.ascending hfuel 3
    (deals_group2Shards (RangeOrder.ascending.keys 1 new.keys) cf.last.shards)
  refine ⟨cf.push owner new, fun order => ?_⟩
  rw [join, hnew, balance_order order RangeOrder.ascending fuel 3 3,
    group2Shards_perm (order.perm RangeOrder.ascending 1 1 new.keys), hbalance, Option.map_some,
    assignShards_order hdeals]

theorem leave_order (order order' : RangeOrder) (gids : List ℤ) :
    cf.leave order gids = cf.leave order' gids := by
  have hmap := group2Shards_perm (order.perm order' 0 0 cf.last.groups.keys) cf.last.shards
  have horphaned :=
    (orphaned_group2Shards (order'.keys 0 cf.last.groups.keys) cf.last.shards).foldl_leaveGroup gids
      cf.last.groups
  obtain ⟨owner', hdeals⟩ := horphaned.adopt order' 2 fun _ => 0
  rw [leave, leave, hmap]
  simp only
  rw [adopt_order order order' 2 2, assignShards_order hdeals, assignShards_order hdeals]

end MemoryConfigStateMachine

/-! ## Runs -/

theorem step_order {fuel : ℕ} (hfuel : 2 * (NShards + 1) * NShards + 1 < fuel)
    (cf : MemoryConfigStateMachine)
    (op : Op) : ∃ cf', ∀ order, step fuel cf (order, op) = some cf' := by
  cases op with
  | join groups => exact cf.join_order hfuel groups
  | leave gids => exact ⟨_, fun order => congrArg some (cf.leave_order order .ascending gids)⟩
  | move shard gid => exact ⟨_, fun _ => rfl⟩
  | query num => exact ⟨_, fun _ => rfl⟩

theorem run_order {fuel : ℕ} (hfuel : 2 * (NShards + 1) * NShards + 1 < fuel)
    (cf : MemoryConfigStateMachine) (ops : List Op) :
    ∃ cf', ∀ as : List (RangeOrder × Op), as.map Prod.snd = ops →
      run (step fuel) cf as = some cf' := by
  induction ops generalizing cf with
  | nil =>
    refine ⟨cf, fun as has => ?_⟩
    rw [List.map_eq_nil_iff.1 has, run_nil]
  | cons op ops ih =>
    obtain ⟨cf₁, hstep⟩ := step_order hfuel cf op
    obtain ⟨cf', hrun⟩ := ih cf₁
    refine ⟨cf', fun as has => ?_⟩
    obtain ⟨⟨order, op'⟩, as', rfl, rfl, has'⟩ := List.map_eq_cons_iff.1 has
    exact run_cons_eq_some.2 ⟨cf₁, hstep order, hrun as' has'⟩

/-- **Replicas agree.** Every sequence of commands runs through, and leads to the same
configurations in whatever orders the maps are met. -/
theorem replicas_agree {fuel : ℕ} (hfuel : 2 * (NShards + 1) * NShards + 1 < fuel) (ops : List Op) :
    ∃ cf, ∀ as : List (RangeOrder × Op), as.map Prod.snd = ops →
      run (step fuel) newMemoryConfigStateMachine as = some cf :=
  run_order hfuel newMemoryConfigStateMachine ops

/-- Every `range` statement meets the keys in descending order. -/
def RangeOrder.descending : RangeOrder where
  keys i K := (RangeOrder.ascending.keys i K).reverse
  nodup i K := List.nodup_reverse.2 (RangeOrder.ascending.nodup i K)
  mem_keys i K g := List.mem_reverse.trans (RangeOrder.ascending.mem_keys i K g)

theorem replicas_agree_movedRun :
    ∃ cf, run (step 300) newMemoryConfigStateMachine movedRun = some cf ∧
      run (step 300) newMemoryConfigStateMachine
        (movedRun.map fun a => (RangeOrder.descending, a.2)) = some cf ∧ cf.configs.length = 6 := by
  obtain ⟨cf, hrun⟩ := replicas_agree (show 2 * (NShards + 1) * NShards + 1 < 300 by decide)
    (movedRun.map Prod.snd)
  have hlength : ((run (step 300) newMemoryConfigStateMachine movedRun).map
      fun cf => cf.configs.length) = some 6 := by decide +kernel
  rw [hrun _ rfl, Option.map_some, Option.some.injEq] at hlength
  exact ⟨cf, hrun _ rfl, hrun _ rfl, hlength⟩

end DistSys.ShardCtrler
