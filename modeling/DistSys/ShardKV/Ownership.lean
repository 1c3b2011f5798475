import DistSys.Lib.Succession
import DistSys.ShardKV.Store

/-!
# Who has a shard

The configurations say who owns a shard; the groups follow them at their own pace. The *holder* of
a shard at a configuration is its last owner: while a shard is unassigned, the group that had it
keeps its content. As long as an unassigned shard goes back to its holder (`Returns`), and so in
particular when no shard is ever unassigned again (`NeverUnassigned`), the holder changes only
from one owner to the next, with a pull in between.

* `Local` — what holds of every state a group goes through, from its own log alone: a shard is
  `Pulling` or `GCing` exactly while it is taken over, `BePulling` while it is given away.
* `Inv` — the two facts that tie the groups together: a shard is taken over from a group that has
  already given it away, and the copy of the old owner goes only after that.
* `Inv.succession` — so each shard is passed on as in `Lib.Succession`.
* `canServe_unique` — at most one group can serve a shard.
-/

namespace DistSys.ShardKV

open ShardCtrler (Config ShardId MemoryConfigStateMachine)

/-! ## Owners and holders -/

def toGid (g : ℤ) : Option Gid := if h : g ≠ 0 then some ⟨g, h⟩ else none

theorem toGid_eq_some {z : ℤ} {g : Gid} : toGid z = some g ↔ z = g := by
  obtain ⟨g, hg⟩ := g
  unfold toGid
  split
  · simp [Subtype.ext_iff]
  · rename_i hz
    simp only [ne_eq, not_not] at hz
    subst hz
    simpa using Ne.symm hg

theorem toGid_eq_none {z : ℤ} : toGid z = none ↔ z = 0 := by
  unfold toGid
  split <;> simp_all

section Owners

variable (cf : MemoryConfigStateMachine) (s : ShardId)

/-- The group that owns the shard in configuration `n`. -/
def owner (n : ℕ) : Option Gid := cf.configs[n]?.bind fun config => toGid (config.shards s)

/-- The group that owned the shard last. -/
def holder : ℕ → Option Gid
  | 0 => owner cf s 0
  | n + 1 => (owner cf s (n + 1)).or (holder n)

/-- An unassigned shard is assigned to the group that held it last, if there is one. -/
def Returns : Prop :=
  ∀ s, ∀ n < cf.configs.length, owner cf s n = none → owner cf s (n + 1) ≠ none →
    holder cf s n = none ∨ holder cf s n = owner cf s (n + 1)

instance : Decidable (Returns cf) :=
  inferInstanceAs (Decidable (∀ _, ∀ n < cf.configs.length, _))

/-- A shard that is assigned to a group is never unassigned again. -/
def NeverUnassigned : Prop :=
  cf.configs.Pairwise fun config config' => ∀ s, config.shards s ≠ 0 → config'.shards s ≠ 0

instance : Decidable (NeverUnassigned cf) := inferInstanceAs (Decidable (List.Pairwise _ _))

end Owners

variable {cf : MemoryConfigStateMachine} {s : ShardId} {n : ℕ} {g a b : Gid}

theorem owner_of_config {config : Config} (h : cf.configs[n]? = some config) :
    owner cf s n = toGid (config.shards s) := by
  rw [owner, h, Option.bind_some]

theorem holder_of_owner (h : owner cf s n = some g) : holder cf s n = some g := by
  cases n with
  | zero => exact h
  | succ n => rw [holder, h, Option.some_or]

theorem holder_succ_of_owner_none (h : owner cf s (n + 1) = none) :
    holder cf s (n + 1) = holder cf s n := by
  rw [holder, h, Option.none_or]

theorem length_of_owner (h : owner cf s n = some g) : n < cf.configs.length := by
  obtain ⟨config, hconfig, -⟩ := Option.bind_eq_some_iff.1 h
  exact (List.getElem?_eq_some_iff.1 hconfig).1

theorem holder_held (h : holder cf s n = some a) : ∃ b, holder cf s (n + 1) = some b := by
  rcases ho : owner cf s (n + 1) with _ | b
  · exact ⟨a, by rw [holder_succ_of_owner_none ho, h]⟩
  · exact ⟨b, holder_of_owner ho⟩

theorem exists_owner_of_holder (h : holder cf s n = some g) : ∃ m ≤ n, owner cf s m = some g := by
  induction n with
  | zero => exact ⟨0, le_rfl, h⟩
  | succ n ih =>
    rcases ho : owner cf s (n + 1) with _ | b
    · rw [holder_succ_of_owner_none ho] at h
      obtain ⟨m, hm, hg⟩ := ih h
      exact ⟨m, hm.trans n.le_succ, hg⟩
    · rw [holder_of_owner ho] at h
      exact ⟨n + 1, le_rfl, ho.trans h⟩

/-- The holder changes only from one owner to the next. -/
theorem owner_of_holder_ne (hret : Returns cf) (ha : holder cf s n = some a)
    (hb : holder cf s (n + 1) = some b) (hab : a ≠ b) :
    owner cf s n = some a ∧ owner cf s (n + 1) = some b := by
  have hb' : owner cf s (n + 1) = some b := by
    rcases ho : owner cf s (n + 1) with _ | c
    · rw [holder_succ_of_owner_none ho, ha, Option.some.injEq] at hb
      exact absurd hb hab
    · rw [holder_of_owner ho] at hb
      exact hb
  refine ⟨?_, hb'⟩
  rcases ho : owner cf s n with _ | c
  · have hn := Nat.lt_of_succ_lt (length_of_owner hb')
    rcases hret s n hn ho (by simp [hb']) with h | h
    · rw [ha] at h
      cases h
    · rw [ha, hb', Option.some.injEq] at h
      exact absurd h hab
  · rw [holder_of_owner ho] at ha
    exact ha

theorem NeverUnassigned.returns (h : NeverUnassigned cf) : Returns cf := by
  intro s n hn ho _
  refine .inl ?_
  -- an earlier owner would be followed by a configuration without one
  by_contra hheld
  obtain ⟨g, hg⟩ := Option.ne_none_iff_exists'.1 hheld
  obtain ⟨m, hm, hmg⟩ := exists_owner_of_holder hg
  rcases Nat.lt_or_eq_of_le hm with hlt | rfl
  · have hm := length_of_owner hmg
    rw [owner_of_config (List.getElem?_eq_getElem hn), toGid_eq_none] at ho
    rw [owner_of_config (List.getElem?_eq_getElem hm), toGid_eq_some] at hmg
    exact List.pairwise_iff_getElem.1 h m n hm hn hlt s (hmg ▸ g.2) ho
  · rw [ho] at hmg
    cases hmg

/-! ## The states of one group -/

/-- What holds of every state of the group `g`. -/
structure Local (cf : MemoryConfigStateMachine) (g : Gid) (kv : ShardKV) : Prop where
  gid : kv.gid = g
  current : cf.configs[kv.num]? = some kv.currentConfig
  last : ∀ n, kv.num = n + 1 → cf.configs[n]? = some kv.lastConfig
  taking : ∀ s, kv.status s = .pulling ∨ kv.status s = .gcing →
    ∃ n a, kv.num = n + 1 ∧ owner cf s n = some a ∧ owner cf s (n + 1) = some g ∧ a ≠ g
  giving : ∀ s, kv.status s = .bePulling →
    ∃ n b, kv.num = n + 1 ∧ owner cf s n = some g ∧ owner cf s (n + 1) = some b ∧ g ≠ b
  blank : Returns cf → ∀ s, kv.status s = .pulling ∨
    kv.status s = .serving ∧ holder cf s kv.num ≠ some g → kv.content s = fun _ => none

/-- The status that a `Serving` shard gets with the next configuration. -/
theorem nextStatus_serving (g cur next : ℤ) :
    nextStatus g cur next .serving = .pulling ∧ cur ≠ g ∧ next = g ∧ cur ≠ 0 ∨
      nextStatus g cur next .serving = .bePulling ∧ cur = g ∧ next ≠ g ∧ next ≠ 0 ∨
      nextStatus g cur next .serving = .serving ∧ (next = g → cur ≠ 0 → cur = g) ∧
        (cur = g → next ≠ 0 → next = g) := by
  unfold nextStatus
  by_cases h : cur = g
  · by_cases h' : next = g
    · simp [h, h']
    · by_cases h0 : next = 0 <;> simp [h, h', h0]
  · by_cases h' : next = g
    · by_cases h0 : cur = 0 <;> simp [h, h', h0]
    · simp [h, h']

namespace Local

variable {kv : ShardKV} {command : Command} {next : Config}

theorem init (cf : MemoryConfigStateMachine) (g : Gid) : Local cf g (new g) where
  gid := rfl
  current := cf.head
  last _ h := by cases h
  taking _ h := by rcases h with h | h <;> cases h
  giving _ h := by cases h
  blank _ _ _ := rfl

theorem owner_current (h : Local cf g kv) (s : ShardId) :
    owner cf s kv.num = toGid (kv.currentConfig.shards s) :=
  owner_of_config h.current

/-- A group serves shards that it owns. -/
theorem owner_of_canServe (h : Local cf g kv) (hs : kv.canServe s) :
    owner cf s kv.num = some g := by
  rw [h.owner_current, toGid_eq_some, hs.1, h.gid]

theorem owner_last (h : Local cf g kv) (hn : kv.num = n + 1) (s : ShardId) :
    owner cf s n = toGid (kv.lastConfig.shards s) :=
  owner_of_config (h.last n hn)

/-- The pulled data goes into an empty shard. -/
theorem putAll_of_pulling (h : Local cf g kv) (hret : Returns cf) (hp : kv.status s = .pulling)
    (data : Key → Option Value) : ((kv.stateMachine s).putAll data).kv = data := by
  have hblank : (kv.stateMachine s).kv = fun _ => none := h.blank hret s (.inl hp)
  funext key
  simp [Shard.putAll, hblank]

/-- The status of a shard after the next configuration, when all shards were `Serving`: it is
taken over, given away, or neither. -/
theorem status_cases (h : Local cf g kv) (hs : kv.Settled)
    (hc : cf.configs[kv.num + 1]? = some next) (s : ShardId) :
    ((kv.apply (.configuration next)).1.status s = .pulling ∧
        ∃ a, owner cf s kv.num = some a ∧ owner cf s (kv.num + 1) = some g ∧ a ≠ g) ∨
      ((kv.apply (.configuration next)).1.status s = .bePulling ∧
        ∃ b, owner cf s kv.num = some g ∧ owner cf s (kv.num + 1) = some b ∧ g ≠ b) ∨
      ((kv.apply (.configuration next)).1.status s = .serving ∧
        (∀ a, owner cf s kv.num = some a → owner cf s (kv.num + 1) = some g → a = g) ∧
        ∀ b, owner cf s kv.num = some g → owner cf s (kv.num + 1) = some b → g = b) := by
  rw [status_apply_configuration (cf.num_eq hc), hs s, h.gid, h.owner_current,
    owner_of_config hc]
  simp only [toGid_eq_some]
  rcases nextStatus_serving g (kv.currentConfig.shards s) (next.shards s) with
    ⟨hst, hcur, hnext, h0⟩ | ⟨hst, hcur, hnext, h0⟩ | ⟨hst, h₁, h₂⟩
  · exact .inl ⟨hst, ⟨_, h0⟩, rfl, hnext, fun he => hcur (congrArg Subtype.val he)⟩
  · exact .inr (.inl ⟨hst, ⟨_, h0⟩, hcur, rfl, fun he => hnext (congrArg Subtype.val he).symm⟩)
  · refine .inr (.inr ⟨hst, fun a ha hg => ?_, fun b hg hb => ?_⟩)
    · exact Subtype.ext (ha.symm.trans (h₁ hg (ha ▸ a.2)))
    · exact Subtype.ext (hb.symm.trans (h₂ hg (hb ▸ b.2))).symm

theorem configuration (h : Local cf g kv) (hs : kv.Settled)
    (hc : cf.configs[kv.num + 1]? = some next) :
    Local cf g (kv.apply (.configuration next)).1 := by
  have hnext : next.num = kv.num + 1 := cf.num_eq hc
  have hnum := num_apply_configuration hnext
  constructor
  · rw [apply_gid, h.gid]
  · rw [hnum, hc, apply_configuration hnext]
  · intro n hn
    obtain rfl : kv.num = n := Nat.succ.inj (hnum.symm.trans hn)
    rw [h.current, apply_configuration hnext]
  · intro s hst
    rcases h.status_cases hs hc s with ⟨-, a, ha⟩ | ⟨hst', -⟩ | ⟨hst', -⟩
    · exact ⟨kv.num, a, hnum, ha⟩
    all_goals simp [hst'] at hst
  · intro s hst
    rcases h.status_cases hs hc s with ⟨hst', -⟩ | ⟨-, b, hb⟩ | ⟨hst', -⟩
    · simp [hst'] at hst
    · exact ⟨kv.num, b, hnum, hb⟩
    · simp [hst'] at hst
  · intro hret s hst
    -- a group that has no part in the shard after this had none before
    rw [content_apply_configuration hnext]
    refine h.blank hret s (.inr ⟨hs s, fun hg => ?_⟩)
    rcases h.status_cases hs hc s with ⟨-, a, ha, -, hne⟩ | ⟨hst', -⟩ | ⟨hst', -, hkeep⟩
    · rw [holder_of_owner ha, Option.some.injEq] at hg
      exact hne hg
    · simp [hst'] at hst
    · obtain ⟨b, hb⟩ := holder_held hg
      have hbg : b ≠ g := by
        rintro rfl
        simp [hst', hnum, hb] at hst
      obtain ⟨h₁, h₂⟩ := owner_of_holder_ne hret hg hb hbg.symm
      exact hbg (hkeep b h₁ h₂).symm

theorem change (h : Local cf g kv) {kv' : ShardKV} (hgid : kv'.gid = kv.gid)
    (hcur : kv'.currentConfig = kv.currentConfig) (hlast : kv'.lastConfig = kv.lastConfig)
    (hchange : ∀ s, Change kv command s (kv'.stateMachine s)) : Local cf g kv' := by
  have hnum : kv'.num = kv.num := by rw [num, num, hcur]
  constructor
  · rw [hgid, h.gid]
  · rw [hnum, hcur, h.current]
  · intro n hn
    rw [hlast]
    exact h.last n (hnum ▸ hn)
  · intro s hst
    rw [hnum]
    refine h.taking s ?_
    rcases (hchange s).status_le with hle | hle | ⟨hle, -⟩
    · rwa [hle]
    · simp [status, hle] at hst
    · exact .inl hle
  · intro s hst
    rw [hnum]
    refine h.giving s ?_
    rw [status, ← (hchange s).frozen hst]
    exact hst
  · intro hret s
    have hch := hchange s
    rw [status, content, hnum]
    generalize kv'.stateMachine s = shard at hch
    intro hst
    cases hch with
    | same => exact h.blank hret s hst
    | write hex =>
      -- a group serves only what it owns
      rcases hst with hst | ⟨-, hst⟩
      · have hp : kv.status (key2shard _) = .pulling := hst
        obtain ⟨-, hs | hs⟩ := hex.1 <;> rw [hp] at hs <;> cases hs
      · exact absurd (holder_of_owner (h.owner_of_canServe hex.1)) hst
    | insert => rcases hst with hst | ⟨hst, -⟩ <;> cases hst
    | collect _ _ hg =>
      rcases hst with hst | ⟨-, hst⟩
      · cases hst
      · obtain ⟨n, a, hn, -, ho, -⟩ := h.taking s (.inr hg)
        exact absurd (hn ▸ holder_of_owner ho) hst
    | delete => rfl

/-- An entry keeps the invariant if the configurations that are accepted are the next ones, in a
state in which every shard is `Serving`. -/
theorem apply (h : Local cf g kv)
    (hc : ∀ next, command = .configuration next → next.num = kv.num + 1 →
      kv.Settled ∧ cf.configs[kv.num + 1]? = some next) :
    Local cf g (kv.apply command).1 := by
  rcases apply_cases kv command with ⟨next, rfl, hnext⟩ | ⟨hcur, hlast, hchange⟩
  · obtain ⟨hs, hconfig⟩ := hc next rfl hnext
    exact h.configuration hs hconfig
  · exact h.change (apply_gid kv command) hcur hlast hchange

end Local

/-! ## What the groups know of each other -/

structure Inv (cf : MemoryConfigStateMachine) (G : Groups) : Prop where
  states : ∀ {g kv}, G.Visited g kv → Local cf g kv
  handed : ∀ {s n a b}, owner cf s n = some a → owner cf s (n + 1) = some b → a ≠ b →
    Obtained (n + 1) s (G.group b) → n + 1 ≤ (G.group a).num
  released : ∀ {s n a b}, owner cf s n = some a → owner cf s (n + 1) = some b → a ≠ b →
    n + 1 ≤ (G.group a).num → Released (n + 1) s (G.group a) → Obtained (n + 1) s (G.group b)

variable {G : Groups} {command : Command} {next : Config}

/-- **A group changes its configuration only when it is settled**, and to the next one. -/
theorem Origin.settled (ho : Origin cf G g (.configuration next))
    (hnum : next.num = (G.group g).num + 1) :
    (G.group g).Settled ∧ cf.configs[(G.group g).num + 1]? = some next := by
  cases ho with
  | @configuration _ kv _ hv hs hc =>
    have hn : kv.num = (G.group g).num := by
      have := cf.num_eq hc
      omega
    -- the statuses were checked in an earlier state with the same configuration
    rcases Quiet.later (.inr ⟨hn, hs⟩) hv.later with hlt | ⟨-, hs'⟩
    · exact absurd hlt (Nat.lt_irrefl _)
    · exact ⟨hs', hn ▸ hc⟩

namespace Inv

theorem group (h : Inv cf G) (g : Gid) : Local cf g (G.group g) :=
  h.states (G.visited_group g)

theorem init (cf : MemoryConfigStateMachine) : Inv cf Groups.init := by
  have hgroup : ∀ g, Groups.init.group g = new g := fun g => rfl
  constructor
  · rintro g kv ⟨k, rfl⟩
    have hnew : Groups.init.replica g k = new g := by
      simp [Groups.replica, Groups.init]
    exact hnew ▸ Local.init cf g
  · rintro s n a b - - - (h | ⟨h, -⟩) <;> cases h
  · intro s n a b _ _ _ h _
    cases h

theorem states_commit (h : Inv cf G) (ho : Origin cf G g command) {g' : Gid} {kv : ShardKV}
    (hv : (G.commit g command).Visited g' kv) : Local cf g' kv := by
  rcases Groups.visited_commit.1 hv with hv | ⟨rfl, rfl⟩
  · exact h.states hv
  · refine (h.group g').apply ?_
    rintro next rfl hnum
    exact ho.settled hnum

/-- A shard that a group gets by an entry was inserted by it, or needs no pull. -/
theorem obtained_cases (h : Inv cf G) (ho : Origin cf G g command) {m : ℕ}
    (hob : Obtained m s ((G.group g).apply command).1) :
    Obtained m s (G.group g) ∨
      (G.group g).num + 1 = m ∧
        (∀ a, owner cf s (G.group g).num = some a → owner cf s m = some g → a = g) ∨
      (G.group g).num = m ∧ (G.group g).status s = .pulling ∧
        ∃ shardsInfo data, command = .insertShards shardsInfo ∧ shardsInfo.configNum = m ∧
          (s, data) ∈ shardsInfo.shards := by
  rcases apply_cases (G.group g) command with ⟨next, rfl, hnext⟩ | ⟨hcur, -, hchange⟩
  · obtain ⟨hs, hc⟩ := ho.settled hnext
    rcases hob with hlt | ⟨rfl, hst⟩
    · -- the group was settled at its old configuration
      rw [num_apply_configuration hnext] at hlt
      rcases Nat.lt_or_eq_of_le (Nat.le_of_lt_succ hlt) with hlt | rfl
      · exact .inl (.inl hlt)
      · exact .inl (.inr ⟨rfl, by rw [hs s]; decide⟩)
    · rw [num_apply_configuration hnext]
      refine .inr (.inl ⟨rfl, fun a ha hg => ?_⟩)
      rcases (h.group g).status_cases hs hc s with ⟨hst', -⟩ | ⟨-, b, -, hb, hne⟩ | ⟨-, hkeep, -⟩
      · exact absurd hst' hst
      · rw [hg, Option.some.injEq] at hb
        exact absurd hb hne
      · exact hkeep a ha hg
  · rcases hob with hlt | ⟨hm, hst⟩
    · exact .inl (.inl (by rwa [num, hcur] at hlt))
    · have hm' : (G.group g).num = m := by rwa [num, hcur] at hm
      by_cases hp : (G.group g).status s = .pulling
      · refine .inr (.inr ⟨hm', hp, ?_⟩)
        obtain ⟨info, data, rfl, hnum, hmem, -⟩ := (hchange s).insert_of_pulling hp hst
        exact ⟨info, data, rfl, hnum.trans hm', hmem⟩
      · exact .inl (.inr ⟨hm', hp⟩)

/-- A copy that a group gives up by an entry was deleted by it. -/
theorem released_cases (h : Inv cf G) (ho : Origin cf G g command) (ha : owner cf s n = some g)
    (hb : owner cf s (n + 1) = some b) (hne : g ≠ b)
    (hle : n + 1 ≤ ((G.group g).apply command).1.num)
    (hrel : Released (n + 1) s ((G.group g).apply command).1) :
    n + 1 ≤ (G.group g).num ∧ Released (n + 1) s (G.group g) ∨
      (G.group g).num = n + 1 ∧
        ∃ shardsInfo, command = .deleteShards shardsInfo ∧ shardsInfo.configNum = n + 1 ∧
          s ∈ shardsInfo.shardIDs := by
  rcases apply_cases (G.group g) command with ⟨next, rfl, hnext⟩ | ⟨hcur, -, hchange⟩
  · obtain ⟨hs, hc⟩ := ho.settled hnext
    rw [num_apply_configuration hnext] at hle
    rcases Nat.lt_or_eq_of_le (Nat.le_of_succ_le_succ hle) with hlt | rfl
    · rcases Nat.lt_or_eq_of_le hlt with hlt | heq
      · exact .inl ⟨hlt.le, .inl hlt⟩
      · exact .inl ⟨heq.le, .inr ⟨heq.symm, by rw [hs s]; decide⟩⟩
    · -- with this configuration the shard becomes `BePulling`
      exfalso
      rcases (h.group g).status_cases hs hc s with ⟨-, a, ha', -, hag⟩ | ⟨hst, -⟩ | ⟨-, -, hkeep⟩
      · rw [ha, Option.some.injEq] at ha'
        exact hag ha'.symm
      · rcases hrel with hlt | ⟨-, hst'⟩
        · rw [num_apply_configuration hnext] at hlt
          exact Nat.lt_irrefl _ hlt
        · exact hst' hst
      · exact hne (hkeep b ha hb)
  · have hnum : ((G.group g).apply command).1.num = (G.group g).num := by rw [num, num, hcur]
    rw [hnum] at hle
    rcases hrel with hlt | ⟨hm, hst⟩
    · exact .inl ⟨hle, .inl (hnum ▸ hlt)⟩
    · rw [hnum] at hm
      by_cases hbp : (G.group g).status s = .bePulling
      · refine .inr ⟨hm, ?_⟩
        obtain ⟨info, rfl, hconfig, hmem, -⟩ := (hchange s).delete_of_bePulling hbp hst
        exact ⟨info, rfl, hconfig.trans hm, hmem⟩
      · exact .inl ⟨hle, .inr ⟨hm, hbp⟩⟩

/-- The shards of a pull reply come from the owner before, after it has moved on. -/
theorem source_of_insert (h : Inv cf G) {shardsInfo : ShardOperationReply}
    {data : Key → Option Value} (ho : Origin cf G g (.insertShards shardsInfo))
    (hnum : shardsInfo.configNum = n + 1) (hmem : (s, data) ∈ shardsInfo.shards)
    (ha : owner cf s n = some a) :
    ∃ kv, G.Visited a kv ∧ n + 1 ≤ kv.num ∧ data = kv.content s ∧
      shardsInfo.lastOperations = kv.lastOperations := by
  cases ho with
  | @insertShards t kv kv' hv ht hv' hn =>
    rw [getShardsData, if_neg hn.not_gt] at hnum hmem ⊢
    obtain ⟨s', hs', he⟩ := List.mem_map.1 hmem
    cases he
    -- the call went to the owner of the configuration before
    have hlast := (h.states hv).owner_last (ht.num.symm.trans hnum) s
    rw [ha, ht.last s hs', toGid_eq_some.2 rfl, Option.some.injEq] at hlast
    subst hlast
    exact ⟨kv', hv', hnum ▸ hn, rfl, rfl⟩

/-- The shards that a group inserts are the frozen copies of the owner before. -/
theorem frozen_source (h : Inv cf G) {shardsInfo : ShardOperationReply}
    {data : Key → Option Value} (ho : Origin cf G g (.insertShards shardsInfo))
    (hnum : shardsInfo.configNum = (G.group g).num) (hmem : (s, data) ∈ shardsInfo.shards)
    (hp : (G.group g).status s = .pulling) :
    ∃ n a kv, (G.group g).num = n + 1 ∧ owner cf s n = some a ∧ G.Visited a kv ∧
      kv.num = n + 1 ∧ kv.status s = .bePulling ∧ data = kv.content s ∧
      shardsInfo.lastOperations = kv.lastOperations := by
  obtain ⟨n, a, hn, ha, hg, hne⟩ := (h.group g).taking s (.inl hp)
  obtain ⟨kv, hv, hle, hdata, htable⟩ := h.source_of_insert ho (hnum.trans hn) hmem ha
  -- the group waits for the shard, so the old owner has not given up its copy
  have hkeep : ¬ Released (n + 1) s kv := by
    intro hrel
    rcases h.released ha hg hne (hle.trans hv.later.num_le) (hrel.later hv.later) with
      hlt | ⟨-, hst⟩
    · omega
    · exact hst hp
  rcases Nat.lt_or_eq_of_le hle with hlt | heq
  · exact absurd (.inl hlt) hkeep
  · exact ⟨n, a, kv, hn, ha, hv, heq.symm,
      by_contra fun hst => hkeep (.inr ⟨heq.symm, hst⟩), hdata, htable⟩

/-- A delete request for a shard comes from its owner, which has obtained it. -/
theorem obtained_of_delete (h : Inv cf G) {shardsInfo : ShardOperationArgs}
    (ho : Origin cf G g (.deleteShards shardsInfo)) (hnum : shardsInfo.configNum = n)
    (hmem : s ∈ shardsInfo.shardIDs) (hb : owner cf s n = some b) :
    Obtained n s (G.group b) := by
  cases ho with
  | @deleteShards t kv _ hv ht =>
    have hkv : kv.num = n := ht.num.symm.trans hnum
    have hst := ht.status s hmem
    obtain ⟨m, a, hm, -, howner, -⟩ := (h.states hv).taking s (.inr hst)
    rw [← hm, hkv, hb, Option.some.injEq] at howner
    subst howner
    exact Obtained.later (.inr ⟨hkv, by rw [hst]; decide⟩) hv.later

theorem handed_commit (h : Inv cf G) (ho : Origin cf G g command) (ha : owner cf s n = some a)
    (hb : owner cf s (n + 1) = some b) (hab : a ≠ b)
    (hob : Obtained (n + 1) s ((G.commit g command).group b)) :
    n + 1 ≤ ((G.commit g command).group a).num := by
  refine le_trans ?_ (G.later_commit g command a).num_le
  by_cases hbg : b = g
  · subst hbg
    rw [Groups.group_commit_self] at hob
    rcases h.obtained_cases ho hob with hob | ⟨hm, hkeep⟩ | ⟨-, -, info, data, rfl, hnum, hmem⟩
    · exact h.handed ha hb hab hob
    · obtain rfl : (G.group b).num = n := Nat.succ.inj hm
      exact absurd (hkeep a ha hb) hab
    · obtain ⟨kv, hv, hn, -⟩ := h.source_of_insert ho hnum hmem ha
      exact hn.trans hv.later.num_le
  · rw [Groups.group_commit_of_ne hbg] at hob
    exact h.handed ha hb hab hob

theorem released_commit (h : Inv cf G) (ho : Origin cf G g command) (ha : owner cf s n = some a)
    (hb : owner cf s (n + 1) = some b) (hab : a ≠ b)
    (hle : n + 1 ≤ ((G.commit g command).group a).num)
    (hrel : Released (n + 1) s ((G.commit g command).group a)) :
    Obtained (n + 1) s ((G.commit g command).group b) := by
  refine Obtained.later ?_ (G.later_commit g command b)
  by_cases hag : a = g
  · subst hag
    rw [Groups.group_commit_self] at hle hrel
    rcases h.released_cases ho ha hb hab hle hrel with ⟨hle, hrel⟩ | ⟨-, info, rfl, hnum, hmem⟩
    · exact h.released ha hb hab hle hrel
    · exact h.obtained_of_delete ho hnum hmem hb
  · rw [Groups.group_commit_of_ne hag] at hle hrel
    exact h.released ha hb hab hle hrel

theorem commit (h : Inv cf G) (ho : Origin cf G g command) : Inv cf (G.commit g command) :=
  ⟨h.states_commit ho, h.handed_commit ho, h.released_commit ho⟩

theorem of_run {st : Store} {as : List Store.Action}
    (h : run (Store.step cf) Store.init as = some st) : Inv cf st.groups :=
  Store.groups_induction (init cf) (fun _ _ _ hI ho => hI.commit ho) h

/-- **A shard passes from holder to holder**, with the configurations as epochs. -/
theorem succession (h : Inv cf G) (hret : Returns cf) (s : ShardId) :
    Succession (holder cf s) (fun g => (G.group g).num) fun g n => Obtained n s (G.group g) where
  held := holder_held
  got_of_lt hlt := .inl hlt
  le_of_got hob := by
    rcases hob with hlt | ⟨heq, -⟩
    · exact hlt.le
    · exact heq.ge
  handed ha hb hab hob := by
    obtain ⟨ha', hb'⟩ := owner_of_holder_ne hret ha hb hab
    exact h.handed ha' hb' hab hob

/-- A group that can serve a shard in some state holds it there and has got it. -/
theorem holder_of_visited (h : Inv cf G) {kv : ShardKV} (hv : G.Visited g kv)
    (hs : kv.canServe s) : holder cf s kv.num = some g ∧ Obtained kv.num s (G.group g) := by
  refine ⟨holder_of_owner ((h.states hv).owner_of_canServe hs),
    Obtained.later (.inr ⟨rfl, fun hp => ?_⟩) hv.later⟩
  obtain ⟨-, hs | hs⟩ := hs <;> rw [hp] at hs <;> cases hs

theorem holder_of_canServe (h : Inv cf G) (hs : (G.group g).canServe s) :
    holder cf s (G.group g).num = some g ∧ Obtained (G.group g).num s (G.group g) :=
  h.holder_of_visited (G.visited_group g) hs

end Inv

/-! ## Exclusive ownership -/

/-- **At most one group can serve a shard**, in every state of the store, for every sequence of
configurations that never unassigns a shard. -/
theorem canServe_unique (hcf : NeverUnassigned cf) {as : List Store.Action} {st : Store}
    (hrun : run (Store.step cf) Store.init as = some st) {a b : Gid} {s : ShardId}
    (ha : (st.groups.group a).canServe s) (hb : (st.groups.group b).canServe s) : a = b := by
  have h := Inv.of_run hrun
  obtain ⟨ha, hga⟩ := h.holder_of_canServe ha
  obtain ⟨hb, hgb⟩ := h.holder_of_canServe hb
  exact (h.succession hcf.returns s).unique ha hga hb hgb

def group1 : Gid := ⟨1, by decide⟩

def group2 : Gid := ⟨2, by decide⟩

/-- The configurations that the controller makes of the commands. -/
def configsOf (ops : List ShardCtrler.Op) : Option MemoryConfigStateMachine :=
  run (ShardCtrler.apply .ascending 20) ShardCtrler.newMemoryConfigStateMachine ops

/-- A group goes through the first `n` configurations. Its proposals start at number `i`. -/
def advance (g : Gid) (i n : ℕ) : List Store.Action :=
  (List.range n).flatMap fun k => [.configurationAction g 100, .commit (i + k)]

/-- Two groups join one after the other. -/
def handoffOps : List ShardCtrler.Op :=
  [.join (Finmap.singleton 1 ["a"]), .join (Finmap.singleton 2 ["b"])]

/-- Group 1 has all shards and executes a command; group 2 takes over the first five shards and has
the copies at group 1 deleted. -/
def handoffRunOf (args : CommandArgs) : List Store.Action :=
  advance group1 0 1 ++ [Store.Action.operation group1 args] ++
    advance group1 1 1 ++ advance group2 2 2 ++
    ([.migrationAction group2 group1 100 [0, 1, 2, 3, 4], .getShardsData 0 100, .commit 4,
      .gcAction group2 group1 100 [0, 1, 2, 3, 4], .deleteShardsData 0 100, .commit 5,
      .deleteShardsReply 0, .commit 6] : List Store.Action)

def handoffRun : List Store.Action := handoffRunOf ⟨[0], [7], .put, 1, 0⟩

theorem canServe_unique_handoffRun :
    ∃ cf st, configsOf handoffOps = some cf ∧
      run (Store.step cf) Store.init handoffRun = some st ∧
      (st.groups.group group2).canServe 0 ∧
      ∀ b, (st.groups.group b).canServe 0 → b = group2 := by
  have h : ∃ cf, configsOf handoffOps = some cf ∧ NeverUnassigned cf ∧
      ∃ st, run (Store.step cf) Store.init handoffRun = some st ∧
        (st.groups.group group2).canServe 0 := by
    decide +kernel
  obtain ⟨cf, hcf, hnever, st, hst, hserve⟩ := h
  exact ⟨cf, st, hcf, hst, hserve, fun b hb => canServe_unique hnever hst hb hserve⟩

end DistSys.ShardKV
