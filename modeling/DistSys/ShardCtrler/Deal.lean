import DistSys.Lib.Balance
import DistSys.ShardCtrler.Config
import Mathlib.Data.Finset.Card
import Mathlib.Tactic.Ring

/-!
# Dealing the shards to the groups

The map `group2Shards` that `Join` and `Leave` work on, as a deal: `Deals m owner` says that the
slices of `m` hold each shard once, under its owner, and not at all if it has none.

* `Deals` — kept by every update of the map; `assignShards` reads the owners back.
* `getGIDWithMinimumShards_spec`, `getGIDWithMaximumShards_cases` — what the two searches find.
* `balance_spec` — the balancing loop of `Join` ends within `weight m + 1` rounds, and they are
  rounds of placing and shifting shards that lead to a balanced assignment.
-/

namespace DistSys

/-! ## Selecting the first least element of a list

The loop that keeps the best candidate so far: it starts with a default and replaces the candidate
by each element that is allowed and strictly better. -/

section Select

variable {α β : Type*} [LinearOrder β] (p : α → Prop) [DecidablePred p] (f : α → β)

/-- The best allowed element of the list, with its value, or the default. -/
def selectLeast (l : List α) (default : α × β) : α × β :=
  l.foldl (fun best a => if p a ∧ f a < best.2 then (a, f a) else best) default

variable {p f}

/-- Either no allowed element is better than the default, or the result is a least one. -/
theorem selectLeast_cases (l : List α) (default : α × β) :
    (selectLeast p f l default = default ∧ ∀ a ∈ l, p a → default.2 ≤ f a) ∨
      ∃ a ∈ l, p a ∧ selectLeast p f l default = (a, f a) ∧ f a < default.2 ∧
        ∀ b ∈ l, p b → f a ≤ f b := by
  induction l generalizing default with
  | nil => exact .inl ⟨rfl, nofun⟩
  | cons x l ih =>
    rw [selectLeast, List.foldl_cons, ← selectLeast]
    by_cases hx : p x ∧ f x < default.2
    · rw [if_pos hx]
      rcases ih (x, f x) with ⟨heq, hle⟩ | ⟨a, ha, hpa, heq, hlt, hle⟩
      · refine .inr ⟨x, List.mem_cons_self, hx.1, heq, hx.2, ?_⟩
        intro b hb hpb
        rcases List.mem_cons.1 hb with rfl | hb
        · exact le_rfl
        · exact hle b hb hpb
      · refine .inr ⟨a, List.mem_cons_of_mem x ha, hpa, heq, hlt.trans hx.2, ?_⟩
        intro b hb hpb
        rcases List.mem_cons.1 hb with rfl | hb
        · exact hlt.le
        · exact hle b hb hpb
    · rw [if_neg hx]
      have hskip : p x → default.2 ≤ f x := fun hpx => not_lt.1 fun hlt => hx ⟨hpx, hlt⟩
      rcases ih default with ⟨heq, hle⟩ | ⟨a, ha, hpa, heq, hlt, hle⟩
      · refine .inl ⟨heq, ?_⟩
        intro b hb hpb
        rcases List.mem_cons.1 hb with rfl | hb
        · exact hskip hpb
        · exact hle b hb hpb
      · refine .inr ⟨a, List.mem_cons_of_mem x ha, hpa, heq, hlt, ?_⟩
        intro b hb hpb
        rcases List.mem_cons.1 hb with rfl | hb
        · exact hlt.le.trans (hskip hpb)
        · exact hle b hb hpb

end Select

namespace ShardCtrler

variable {m : GroupMap (List ShardId)} {g g' : ℤ} {s : ShardId} {gids : List ℤ}

/-! ## Slices of the map -/

@[simp] theorem shardsOf_empty (g : ℤ) : shardsOf ∅ g = [] := by
  simp [shardsOf]

@[simp] theorem shardsOf_insert_self (l : List ShardId) : shardsOf (m.insert g l) g = l := by
  simp [shardsOf]

theorem shardsOf_insert_of_ne (h : g' ≠ g) (l : List ShardId) :
    shardsOf (m.insert g l) g' = shardsOf m g' := by
  simp [shardsOf, Finmap.lookup_insert_of_ne m h]

theorem shardsOf_addShard (g' : ℤ) :
    shardsOf (addShard m g s) g' = if g' = g then shardsOf m g ++ [s] else shardsOf m g' := by
  rw [addShard]
  split
  · rename_i h
    rw [h, shardsOf_insert_self]
  · rename_i h
    exact shardsOf_insert_of_ne h _

theorem shardsOf_erase (g' : ℤ) :
    shardsOf (m.erase g) g' = if g' = g then [] else shardsOf m g' := by
  split
  · rename_i h
    rw [h, shardsOf, Finmap.lookup_erase, Option.getD_none]
  · rename_i h
    rw [shardsOf, Finmap.lookup_erase_ne h, shardsOf]

/-- Only keys of the map have shards. -/
theorem mem_of_mem_shardsOf (h : s ∈ shardsOf m g) : g ∈ m := by
  by_contra hg
  rw [shardsOf, Finmap.lookup_eq_none.2 hg] at h
  cases h

/-! ## Deals -/

/-- The slices of the map hold each shard that has an owner once, under its owner. -/
structure Deals (m : GroupMap (List ShardId)) (owner : ShardId → Option ℤ) : Prop where
  mem : ∀ {g s}, s ∈ shardsOf m g ↔ owner s = some g
  nodup : ∀ g, (shardsOf m g).Nodup

namespace Deals

variable {owner : ShardId → Option ℤ}

theorem key (h : Deals m owner) (hs : owner s = some g) : g ∈ m :=
  mem_of_mem_shardsOf (h.mem.2 hs)

theorem length_le (h : Deals m owner) (g : ℤ) : (shardsOf m g).length ≤ NShards := by
  simpa using (h.nodup g).length_le_card

/-- A shard without an owner is dealt to a group. -/
theorem add (h : Deals m owner) (hs : owner s = none) (g : ℤ) :
    Deals (addShard m g s) (Function.update owner s (some g)) := by
  have hnot : ∀ g', s ∉ shardsOf m g' := fun g' hmem => by
    rw [h.mem, hs] at hmem
    cases hmem
  constructor
  · intro g' s'
    rw [shardsOf_addShard]
    by_cases hs' : s' = s
    · subst hs'
      rw [Function.update_self, Option.some.injEq]
      split
      · rename_i hg
        simp [hg]
      · rename_i hg
        simp [hnot g', Ne.symm hg]
    · rw [Function.update_of_ne hs', ← h.mem]
      split
      · rename_i hg
        simp [hg, hs']
      · exact Iff.rfl
  · intro g'
    rw [shardsOf_addShard]
    split
    · rw [← List.concat_eq_append]
      exact (h.nodup g).concat (hnot g)
    · exact h.nodup g'

/-- The shards of a group lose their owner. -/
theorem erase (h : Deals m owner) (g : ℤ) :
    Deals (m.erase g) fun s => if owner s = some g then none else owner s := by
  constructor
  · intro g' s
    rw [shardsOf_erase]
    by_cases hg : g' = g
    · subst hg
      by_cases hs : owner s = some g' <;> simp [hs]
    · by_cases hs : owner s = some g
      · simp [hg, hs, h.mem, Ne.symm hg]
      · simp [hg, hs, h.mem]
  · intro g'
    rw [shardsOf_erase]
    split
    · exact List.nodup_nil
    · exact h.nodup g'

end Deals

/-- One round of the balancing loop. -/
def moveShard (m : GroupMap (List ShardId)) (source target : ℤ) (s : ShardId) :
    GroupMap (List ShardId) :=
  (addShard m target s).insert source (shardsOf (addShard m target s) source).tail

theorem shardsOf_moveShard {source target : ℤ} (hne : source ≠ target) {rest : List ShardId}
    (hsource : shardsOf m source = s :: rest) (g : ℤ) :
    shardsOf (moveShard m source target s) g =
      if g = source then rest else if g = target then shardsOf m target ++ [s]
      else shardsOf m g := by
  rw [moveShard]
  by_cases hg : g = source
  · subst hg
    rw [shardsOf_insert_self, shardsOf_addShard, if_neg hne, hsource, if_pos rfl, List.tail_cons]
  · rw [shardsOf_insert_of_ne hg, shardsOf_addShard, if_neg hg]

theorem mem_moveShard {source target : ℤ} (hs : source ∈ m) (ht : target ∈ m) :
    g ∈ moveShard m source target s ↔ g ∈ m := by
  simp only [moveShard, addShard, Finmap.mem_insert]
  constructor
  · rintro (rfl | rfl | h)
    · exact hs
    · exact ht
    · exact h
  · exact fun h => .inr (.inr h)

/-- The shard changes its owner. -/
theorem Deals.move {owner : ShardId → Option ℤ} (h : Deals m owner) {source target : ℤ}
    (hne : source ≠ target) {rest : List ShardId} (hsource : shardsOf m source = s :: rest) :
    Deals (moveShard m source target s) (Function.update owner s (some target)) := by
  have hnodup := h.nodup source
  rw [hsource, List.nodup_cons] at hnodup
  have hs : owner s = some source := h.mem.1 (by rw [hsource]; exact List.mem_cons_self)
  have hnot : ∀ g, g ≠ source → s ∉ shardsOf m g := fun g hg hmem => by
    rw [h.mem, hs, Option.some.injEq] at hmem
    exact hg hmem.symm
  constructor
  · intro g s'
    rw [shardsOf_moveShard hne hsource]
    by_cases hs' : s' = s
    · subst hs'
      rw [Function.update_self, Option.some.injEq]
      split
      · rename_i hg
        simp [hg, hnodup.1, Ne.symm hne]
      · rename_i hg
        split
        · rename_i hg'
          simp [hg']
        · rename_i hg'
          simp [hnot g hg, Ne.symm hg']
    · rw [Function.update_of_ne hs', ← h.mem]
      split
      · rename_i hg
        simp [hg, hsource, hs']
      · split
        · rename_i hg'
          simp [hg', hs']
        · exact Iff.rfl
  · intro g
    rw [shardsOf_moveShard hne hsource]
    split
    · exact hnodup.2
    · split
      · rw [← List.concat_eq_append]
        exact (h.nodup target).concat (hnot target (Ne.symm hne))
      · exact h.nodup g

theorem Deals.move_some {owner : ShardId → ℤ} (h : Deals m fun s => some (owner s))
    {source target : ℤ} (hne : source ≠ target) {rest : List ShardId}
    (hsource : shardsOf m source = s :: rest) :
    Deals (moveShard m source target s) fun s' => some (Function.update owner s target s') := by
  have howner := Function.comp_update some owner s target
  rw [show (fun s' => some (Function.update owner s target s')) = _ from howner]
  exact h.move hne hsource

/-! ## Building the map and reading it back -/

theorem shardsOf_foldl_nil (h : ∀ g, shardsOf m g = []) (g : ℤ) :
    shardsOf (gids.foldl (fun m gid => m.insert gid []) m) g = [] := by
  induction gids generalizing m with
  | nil => exact h g
  | cons gid gids ih =>
    refine ih fun g' => ?_
    by_cases hg : g' = gid
    · rw [hg, shardsOf_insert_self]
    · rw [shardsOf_insert_of_ne hg, h]

theorem mem_foldl_nil :
    g ∈ gids.foldl (fun (m : GroupMap (List ShardId)) gid => m.insert gid []) m ↔
      g ∈ gids ∨ g ∈ m := by
  induction gids generalizing m with
  | nil => simp
  | cons gid gids ih =>
    rw [List.foldl_cons, ih, Finmap.mem_insert, List.mem_cons]
    tauto

theorem deals_foldl_addShard {owner : ShardId → Option ℤ} (shards : ShardId → ℤ)
    (h : Deals m owner) {l : List ShardId} (hnodup : l.Nodup) (hl : ∀ s ∈ l, owner s = none) :
    Deals (l.foldl (fun m shard => addShard m (shards shard) shard) m)
      fun s => if s ∈ l then some (shards s) else owner s := by
  induction l generalizing m owner with
  | nil => simpa using h
  | cons s l ih =>
    rw [List.nodup_cons] at hnodup
    have hstep := ih (h.add (hl s List.mem_cons_self) (shards s)) hnodup.2 fun s' hs' => by
      have hne : s' ≠ s := fun he => hnodup.1 (he ▸ hs')
      rw [Function.update_of_ne hne]
      exact hl s' (List.mem_cons_of_mem s hs')
    have howner : (fun s' => if s' ∈ s :: l then some (shards s') else owner s') = fun s' =>
        if s' ∈ l then some (shards s') else Function.update owner s (some (shards s)) s' := by
      funext s'
      by_cases hs' : s' = s
      · subst hs'
        simp [hnodup.1]
      · simp [hs']
    rw [howner]
    exact hstep

theorem mem_foldl_addShard (shards : ShardId → ℤ) {l : List ShardId} :
    g ∈ l.foldl (fun m shard => addShard m (shards shard) shard) m ↔
      (∃ s ∈ l, shards s = g) ∨ g ∈ m := by
  induction l generalizing m with
  | nil => simp
  | cons s l ih =>
    rw [List.foldl_cons, ih, addShard, Finmap.mem_insert]
    simp only [List.mem_cons, exists_eq_or_imp, eq_comm (a := g)]
    rw [or_assoc, or_left_comm]

theorem deals_group2Shards (gids : List ℤ) (shards : ShardId → ℤ) :
    Deals (group2Shards gids shards) fun s => some (shards s) := by
  have hnil : ∀ g, shardsOf (gids.foldl (fun m gid => m.insert gid []) ∅) g = [] :=
    shardsOf_foldl_nil shardsOf_empty
  have hempty : Deals (gids.foldl (fun m gid => m.insert gid []) ∅) fun _ => none :=
    ⟨by simp [hnil], by simp [hnil]⟩
  have h := deals_foldl_addShard shards hempty (List.nodup_finRange NShards) fun _ _ => rfl
  simpa [group2Shards] using h

theorem mem_group2Shards {shards : ShardId → ℤ} :
    g ∈ group2Shards gids shards ↔ g ∈ gids ∨ ∃ s, shards s = g := by
  rw [group2Shards, mem_foldl_addShard, mem_foldl_nil]
  simp [or_comm, Finmap.notMem_empty]

theorem foldl_update (l : List ShardId) (gid : ℤ) (new : ShardId → ℤ) :
    l.foldl (fun new shard => Function.update new shard gid) new s =
      if s ∈ l then gid else new s := by
  induction l generalizing new with
  | nil => rfl
  | cons s' l ih =>
    rw [List.foldl_cons, ih]
    by_cases hs : s = s'
    · subst hs
      simp
    · simp [hs]

/-- The last loop gives every shard to its owner. -/
theorem assignShards_eq {owner : ShardId → Option ℤ} (h : Deals m owner) (new : ShardId → ℤ)
    (hs : owner s = some g) (hg : g ∈ gids ∨ new s = g) : assignShards gids m new s = g := by
  rw [assignShards]
  induction gids generalizing new with
  | nil =>
    rcases hg with hg | hg
    · cases hg
    · exact hg
  | cons gid gids ih =>
    refine ih _ ?_
    simp only [foldl_update]
    by_cases hgid : gid = g
    · subst hgid
      exact .inr (if_pos (h.mem.2 hs))
    · have hnot : s ∉ shardsOf m gid := fun hmem => by
        rw [h.mem, hs, Option.some.injEq] at hmem
        exact hgid hmem.symm
      rw [if_neg hnot]
      rcases hg with hg | hg
      · exact .inl ((List.mem_cons.1 hg).resolve_left (Ne.symm hgid))
      · exact .inr hg

/-- The assignment is read off the deal. -/
theorem assignShards_order {owner : ShardId → ℤ} (h : Deals m fun s => some (owner s))
    (order : RangeOrder) (i : ℕ) (new : ShardId → ℤ) :
    assignShards (order.keys i m.keys) m new = owner := by
  funext s
  exact assignShards_eq h new rfl
    (.inl ((order.mem_keys _ _ _).2 (Finmap.mem_keys.2 (h.key (s := s) rfl))))

/-! ## The two searches -/

theorem getGIDWithMinimumShards_eq (gids : List ℤ) (m : GroupMap (List ShardId)) :
    getGIDWithMinimumShards gids m =
      (selectLeast (fun gid => gid ≠ 0) (fun gid => (shardsOf m gid).length)
        (gids.insertionSort (· ≤ ·)) ((-1 : ℤ), NShards + 1)).1 := rfl

theorem getGIDWithMaximumShards_eq (gids : List ℤ) (m : GroupMap (List ShardId))
    (h : shardsOf m 0 = []) :
    getGIDWithMaximumShards gids m =
      (selectLeast (β := ℤᵒᵈ) (fun _ => True)
        (fun gid => OrderDual.toDual ((shardsOf m gid).length : ℤ))
        (gids.insertionSort (· ≤ ·)) ((-1 : ℤ), OrderDual.toDual (-1 : ℤ))).1 := by
  rw [getGIDWithMaximumShards, if_neg (not_not_intro h), selectLeast]
  simp only [true_and]
  rfl

/-- If there is a group, the one with the fewest shards is found. -/
theorem getGIDWithMinimumShards_spec {owner : ShardId → Option ℤ} (h : Deals m owner)
    (hg : g ∈ gids) (h0 : g ≠ 0) :
    getGIDWithMinimumShards gids m ∈ gids ∧ getGIDWithMinimumShards gids m ≠ 0 ∧
      ∀ g' ∈ gids, g' ≠ 0 →
        (shardsOf m (getGIDWithMinimumShards gids m)).length ≤ (shardsOf m g').length := by
  rw [getGIDWithMinimumShards_eq]
  have hsort : ∀ x, x ∈ gids.insertionSort (· ≤ ·) ↔ x ∈ gids := fun _ =>
    (List.perm_insertionSort _ gids).mem_iff
  rcases selectLeast_cases (p := fun gid : ℤ => gid ≠ 0)
      (f := fun gid => (shardsOf m gid).length) (gids.insertionSort (· ≤ ·))
      ((-1 : ℤ), NShards + 1) with ⟨-, hle⟩ | ⟨a, ha, ha0, heq, -, hle⟩
  · have hlong := hle g ((hsort g).2 hg) h0
    have hshort := h.length_le g
    simp only at hlong
    omega
  · rw [heq]
    exact ⟨(hsort a).1 ha, ha0, fun g' hg' => hle g' ((hsort g').2 hg')⟩

/-- Group 0 is the source as long as it has shards, then the group with the most. -/
theorem getGIDWithMaximumShards_cases (hg : g ∈ gids) :
    (shardsOf m 0 ≠ [] ∧ getGIDWithMaximumShards gids m = 0) ∨
      (shardsOf m 0 = [] ∧ getGIDWithMaximumShards gids m ∈ gids ∧
        ∀ g' ∈ gids,
          (shardsOf m g').length ≤ (shardsOf m (getGIDWithMaximumShards gids m)).length) := by
  by_cases h0 : shardsOf m 0 = []
  · refine .inr ⟨h0, ?_⟩
    rw [getGIDWithMaximumShards_eq gids m h0]
    have hsort : ∀ x, x ∈ gids.insertionSort (· ≤ ·) ↔ x ∈ gids := fun _ =>
      (List.perm_insertionSort _ gids).mem_iff
    rcases selectLeast_cases (β := ℤᵒᵈ) (p := fun _ : ℤ => True)
        (f := fun gid => OrderDual.toDual ((shardsOf m gid).length : ℤ))
        (gids.insertionSort (· ≤ ·)) ((-1 : ℤ), OrderDual.toDual (-1 : ℤ)) with
      ⟨-, hle⟩ | ⟨a, ha, -, heq, -, hle⟩
    · have hneg := OrderDual.toDual_le_toDual.1 (hle g ((hsort g).2 hg) trivial)
      omega
    · rw [heq]
      refine ⟨(hsort a).1 ha, fun g' hg' => ?_⟩
      exact Int.ofNat_le.1 (OrderDual.toDual_le_toDual.1 (hle g' ((hsort g').2 hg') trivial))
  · exact .inl ⟨h0, by rw [getGIDWithMaximumShards, if_pos h0]⟩

/-! ## The balancing loop -/

/-- What a slice weighs: a shard of group 0 more than it adds to the weight of any other group. -/
def sliceWeight (g : ℤ) (k : ℕ) : ℕ := if g = 0 then 2 * (NShards + 1) * k else k * k

/-- The weight of the map, which every round of the loop reduces. -/
def weight (m : GroupMap (List ShardId)) : ℕ :=
  ∑ g ∈ m.keys, sliceWeight g (shardsOf m g).length

/-- All shards are dealt, to the groups or to group 0. -/
structure Dealt (groups : Finset ℤ) (m : GroupMap (List ShardId)) (owner : ShardId → ℤ) :
    Prop where
  deals : Deals m fun s => some (owner s)
  keys : ∀ g ∈ m, g = 0 ∨ g ∈ groups
  groups_mem : ∀ g ∈ groups, g ∈ m

namespace Dealt

variable {groups : Finset ℤ} {owner : ShardId → ℤ}

theorem length_eq (h : Dealt groups m owner) (g : ℤ) :
    (shardsOf m g).length = load owner g := by
  rw [load, ← List.toFinset_card_of_nodup (h.deals.nodup g)]
  congr 1
  ext s
  simp [h.deals.mem]

/-- Every deal weighs at most as much as all shards at group 0. -/
theorem weight_le (h : Dealt groups m owner) : weight m ≤ 2 * (NShards + 1) * NShards := by
  have hslice : ∀ g ∈ m.keys, sliceWeight g (shardsOf m g).length ≤
      2 * (NShards + 1) * (shardsOf m g).length := by
    intro g _
    have hle := h.deals.length_le g
    rw [sliceWeight]
    split
    · exact le_rfl
    · exact Nat.mul_le_mul_right _ (hle.trans (by decide))
  have hsum : ∑ g ∈ m.keys, (shardsOf m g).length = NShards := by
    have hcard := sum_load fun s => Finmap.mem_keys.2 (h.deals.key (s := s) rfl)
    rw [Fintype.card_fin] at hcard
    rw [← hcard]
    exact Finset.sum_congr rfl fun g _ => h.length_eq g
  calc weight m ≤ ∑ g ∈ m.keys, 2 * (NShards + 1) * (shardsOf m g).length := Finset.sum_le_sum hslice
    _ = 2 * (NShards + 1) * NShards := by rw [← Finset.mul_sum, hsum]

/-- Once group 0 has no shards, all are with the groups. -/
theorem owner_mem (h : Dealt groups m owner) (hnil : shardsOf m 0 = []) (s : ShardId) :
    owner s ∈ groups := by
  refine (h.keys _ (h.deals.key (s := s) rfl)).resolve_left fun h0 => ?_
  have hs : s ∈ shardsOf m 0 := h.deals.mem.2 (by rw [h0])
  rw [hnil] at hs
  cases hs

theorem move (h : Dealt groups m owner) {source target : ℤ} (hne : source ≠ target)
    (hs : source ∈ m) (ht : target ∈ m) {rest : List ShardId}
    (hsource : shardsOf m source = s :: rest) :
    Dealt groups (moveShard m source target s) (Function.update owner s target) where
  deals := h.deals.move_some hne hsource
  keys g hg := h.keys g ((mem_moveShard hs ht).1 hg)
  groups_mem g hg := (mem_moveShard hs ht).2 (h.groups_mem g hg)

end Dealt

/-- A move changes the slices of two groups only. -/
theorem weight_moveShard {source target : ℤ} (hne : source ≠ target) (hs : source ∈ m)
    (ht : target ∈ m) {rest : List ShardId} (hsource : shardsOf m source = s :: rest) :
    weight (moveShard m source target s) +
        (sliceWeight source (rest.length + 1) + sliceWeight target (shardsOf m target).length) =
      weight m +
        (sliceWeight source rest.length + sliceWeight target ((shardsOf m target).length + 1)) := by
  have hkeys : (moveShard m source target s).keys = m.keys := by
    ext g
    rw [Finmap.mem_keys, Finmap.mem_keys, mem_moveShard hs ht]
  have hs' := Finmap.mem_keys.2 hs
  have ht' : target ∈ m.keys.erase source :=
    Finset.mem_erase.2 ⟨Ne.symm hne, Finmap.mem_keys.2 ht⟩
  -- the sum, with the two summands taken out
  have hsplit : ∀ f : ℤ → ℕ, ∑ g ∈ m.keys, f g =
      f source + (f target + ∑ g ∈ (m.keys.erase source).erase target, f g) := by
    intro f
    rw [Finset.add_sum_erase _ f ht', Finset.add_sum_erase _ f hs']
  have hrest : ∑ g ∈ (m.keys.erase source).erase target,
        sliceWeight g (shardsOf (moveShard m source target s) g).length =
      ∑ g ∈ (m.keys.erase source).erase target, sliceWeight g (shardsOf m g).length := by
    refine Finset.sum_congr rfl fun g hg => ?_
    simp only [Finset.mem_erase] at hg
    rw [shardsOf_moveShard hne hsource, if_neg hg.2.1, if_neg hg.1]
  rw [weight, weight, hkeys, hsplit, hsplit (fun g => sliceWeight g (shardsOf m g).length), hrest,
    shardsOf_moveShard hne hsource, shardsOf_moveShard hne hsource, if_pos rfl,
    if_neg (Ne.symm hne), if_pos rfl, hsource, List.length_append, List.length_singleton,
    List.length_cons]
  ring

/-- Moving a shard from group 0, or to a group with at least two shards less, loses weight. -/
theorem sliceWeight_lt {source target : ℤ} {r t : ℕ} (htarget : target ≠ 0) (ht : t ≤ NShards)
    (h : source ≠ 0 → t + 1 ≤ r) :
    sliceWeight source r + sliceWeight target (t + 1) <
      sliceWeight source (r + 1) + sliceWeight target t := by
  rw [sliceWeight, sliceWeight, sliceWeight, sliceWeight, if_neg htarget, if_neg htarget]
  split
  · have hexpand : (t + 1) * (t + 1) = t * t + 2 * t + 1 := by ring
    rw [hexpand, Nat.mul_succ (2 * (NShards + 1)) r]
    omega
  · rename_i h0
    have hlt := h h0
    have hexpand : ∀ k : ℕ, (k + 1) * (k + 1) = k * k + 2 * k + 1 := fun k => by ring
    rw [hexpand, hexpand]
    omega

/-- The loop goes on: the source has a shard and, unless it is group 0, at least two more than the
target. -/
theorem Dealt.source_spec {groups : Finset ℤ} {owner : ShardId → ℤ} (h : Dealt groups m owner)
    {keys : List ℤ} (hmem : ∀ g, g ∈ keys ↔ g ∈ m) {source target : ℤ} (htarget : target ≠ 0)
    (hmax : (shardsOf m 0 ≠ [] ∧ source = 0) ∨ (shardsOf m 0 = [] ∧ source ∈ keys ∧
      ∀ g ∈ keys, (shardsOf m g).length ≤ (shardsOf m source).length))
    (hgo : ¬ (source ≠ 0 ∧
      ((shardsOf m source).length : ℤ) - (shardsOf m target).length ≤ 1)) :
    source ∈ m ∧ source ≠ target ∧ shardsOf m source ≠ [] ∧
      (source ≠ 0 → (shardsOf m target).length + 2 ≤ (shardsOf m source).length) := by
  rcases hmax with ⟨hne, rfl⟩ | ⟨hnil, hin, hmax⟩
  · obtain ⟨s, hs⟩ := List.exists_mem_of_ne_nil _ hne
    exact ⟨mem_of_mem_shardsOf hs, Ne.symm htarget, hne, fun h0 => absurd rfl h0⟩
  · have hgap : (shardsOf m target).length + 2 ≤ (shardsOf m source).length := by
      by_contra hlt
      refine hgo ⟨?_, by omega⟩
      -- some group has a shard, so the largest is not group 0
      rintro rfl
      have hfirst : (0 : ShardId) ∈ shardsOf m (owner 0) := h.deals.mem.2 rfl
      have hle := hmax (owner 0) ((hmem _).2 (mem_of_mem_shardsOf hfirst))
      rw [hnil, List.length_nil, Nat.le_zero, List.length_eq_zero_iff] at hle
      rw [hle] at hfirst
      cases hfirst
    refine ⟨(hmem source).1 hin, ?_, ?_, fun _ => hgap⟩
    · rintro rfl
      omega
    · intro hnil'
      rw [hnil', List.length_nil] at hgap
      omega

/-- What the loop does then is a round of balancing. -/
theorem Dealt.round {groups : Finset ℤ} {owner : ShardId → ℤ} (h : Dealt groups m owner)
    (hzero : (0 : ℤ) ∉ groups) {keys : List ℤ} (hmem : ∀ g, g ∈ keys ↔ g ∈ m) {source target : ℤ}
    (htarget : Least groups owner target)
    (hmax : (shardsOf m 0 ≠ [] ∧ source = 0) ∨ (shardsOf m 0 = [] ∧ source ∈ keys ∧
      ∀ g ∈ keys, (shardsOf m g).length ≤ (shardsOf m source).length))
    (hgap : source ≠ 0 → (shardsOf m target).length + 2 ≤ (shardsOf m source).length)
    {rest : List ShardId} (hslice : shardsOf m source = s :: rest) :
    Round groups owner (Function.update owner s target) := by
  have hs : owner s = source :=
    Option.some.inj (h.deals.mem.1 (by rw [hslice]; exact List.mem_cons_self))
  rcases hmax with ⟨-, rfl⟩ | ⟨hnil, hin, hmax⟩
  · exact .place ⟨s, target, fun hg => hzero (hs ▸ hg), htarget⟩
  · have hsource : source ≠ 0 := by
      rintro rfl
      rw [hnil] at hslice
      cases hslice
    refine .shift ⟨s, target, h.owner_mem hnil, htarget, fun g hg => ?_, ?_⟩
    · rw [hs, ← h.length_eq, ← h.length_eq]
      exact hmax g ((hmem g).2 (h.groups_mem g hg))
    · rw [hs, ← h.length_eq, ← h.length_eq]
      exact hgap hsource

/-- **The balancing loop of `Join`**, when there is a group: it ends after rounds of balancing that
leave all shards with the groups, and no group with two shards more than another. -/
theorem balance_spec (order : RangeOrder) {groups : Finset ℤ} (hzero : (0 : ℤ) ∉ groups)
    (hsome : groups.Nonempty) {fuel : ℕ} (i : ℕ) {owner : ShardId → ℤ}
    (h : Dealt groups m owner) (hfuel : weight m < fuel) :
    ∃ m' owner', balance order fuel i m = some m' ∧ Dealt groups m' owner' ∧
      Relation.ReflTransGen (Round groups) owner owner' ∧ Balanced groups owner' := by
  induction fuel generalizing i m owner with
  | zero => exact absurd hfuel (Nat.not_lt_zero _)
  | succ fuel ih =>
    have hmem : ∀ j g, g ∈ order.keys j m.keys ↔ g ∈ m := fun j g => by
      rw [order.mem_keys, Finmap.mem_keys]
    obtain ⟨g₀, hg₀⟩ := hsome
    have hg₀m := h.groups_mem g₀ hg₀
    have hg₀ne : g₀ ≠ 0 := fun he => hzero (he ▸ hg₀)
    obtain ⟨ht, ht0, hmin⟩ :=
      getGIDWithMinimumShards_spec h.deals ((hmem (i + 1) g₀).2 hg₀m) hg₀ne
    have hmax := getGIDWithMaximumShards_cases (m := m) ((hmem i g₀).2 hg₀m)
    rw [balance]
    generalize getGIDWithMinimumShards (order.keys (i + 1) m.keys) m = target at ht ht0 hmin ⊢
    generalize getGIDWithMaximumShards (order.keys i m.keys) m = source at hmax ⊢
    rw [hmem] at ht
    have hleast : Least groups owner target := by
      refine ⟨(h.keys target ht).resolve_left ht0, fun g hg => ?_⟩
      rw [← h.length_eq, ← h.length_eq]
      exact hmin g ((hmem (i + 1) g).2 (h.groups_mem g hg)) fun he => hzero (he ▸ hg)
    simp only
    split
    · -- the loop ends
      rename_i hexit
      rcases hmax with ⟨-, h0⟩ | ⟨hnil, -, hmax⟩
      · exact absurd h0 hexit.1
      · refine ⟨m, owner, rfl, h, .refl, h.owner_mem hnil, fun g hg g' hg' => ?_⟩
        have h₁ := hmax g ((hmem i g).2 (h.groups_mem g hg))
        have h₂ := hleast.le g' hg'
        have h₃ := hexit.2
        rw [h.length_eq, h.length_eq] at h₁ h₃
        omega
    · -- a shard moves
      rename_i hgo
      obtain ⟨hs, hne, hnonempty, hgap⟩ := h.source_spec (hmem i) ht0 hmax hgo
      obtain ⟨s, rest, hslice⟩ := List.exists_cons_of_ne_nil hnonempty
      have hweight := weight_moveShard hne hs ht hslice
      have hless : sliceWeight source rest.length +
          sliceWeight target ((shardsOf m target).length + 1) <
            sliceWeight source (rest.length + 1) + sliceWeight target (shardsOf m target).length :=
        sliceWeight_lt ht0 (h.deals.length_le target) fun h0 => by
          have := hgap h0
          rw [hslice, List.length_cons] at this
          omega
      have hmoved : weight (moveShard m source target s) < fuel := by omega
      rw [hslice]
      obtain ⟨m', owner', heq, hdealt, hrounds, hbalanced⟩ :=
        ih (i + 2) (h.move hne hs ht hslice) hmoved
      exact ⟨m', owner', heq, hdealt,
        .head (h.round hzero (hmem i) hleast hmax hgap hslice) hrounds, hbalanced⟩

end ShardCtrler

end DistSys
