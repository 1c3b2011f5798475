import DistSys.ShardKV.Ownership

/-!
# The sharded store as one map

The operations that the groups execute, in the order of execution, make one map: `valueOf` is the
value of a key after them. Wherever a shard is, its content is that of this map, and the table of
the clients that comes with it knows every write on the shard (`UpToDate`). This is so for the
group that holds the shard, and for the frozen copy of the group that gives it away until the next
owner has it.

Main result: `get_eq_valueOf`, every executed `Get` returns the value of the one map, when an
unassigned shard goes back to the group that held it last. `get_eq_valueOf_fails` shows why that is
needed: a group that gets an unassigned shard pulls it from nobody and starts with an empty one.
-/

namespace DistSys.ShardKV

open ShardCtrler (Config ShardId MemoryConfigStateMachine)

variable {cf : MemoryConfigStateMachine} {G : Groups} {g : Gid} {kv : ShardKV} {command : Command}
  {args : CommandArgs} {s : ShardId} {executed new : List Executed} {key : Key}

/-! ## One map -/

/-- The value of a key after the operations. -/
def valueOf (executed : List Executed) (key : Key) : Option Value :=
  executed.foldl (fun value e => if e.args.key = key then e.args.effect value else value) none

/-- The part of the map that belongs to a shard. -/
def contentOf (executed : List Executed) (s : ShardId) : Key → Option Value := fun key =>
  if key2shard key = s then valueOf executed key else none

/-- The reply to a `Get` of a key with this value. -/
def readReply : Option Value → CommandReply
  | some value => ⟨.ok, value⟩
  | none => ⟨.errNoKey, []⟩

/-- Every `Get` returns the value of its key after all operations before it. -/
def ReadsLast (executed : List Executed) : Prop :=
  ∀ i e, executed[i]? = some e → e.args.op = .get →
    e.reply = readReply (valueOf (executed.take i) e.args.key)

theorem valueOf_concat (executed : List Executed) (e : Executed) (key : Key) :
    valueOf (executed ++ [e]) key =
      if e.args.key = key then e.args.effect (valueOf executed key) else valueOf executed key := by
  simp [valueOf]

theorem valueOf_append_of_ne (h : ∀ e ∈ new, e.args.key ≠ key) :
    valueOf (executed ++ new) key = valueOf executed key := by
  induction new using List.reverseRecOn with
  | nil => rw [List.append_nil]
  | append_singleton new e ih =>
    rw [← List.append_assoc, valueOf_concat, if_neg (h e (by simp)),
      ih fun e he => h e (List.mem_append_left _ he)]

theorem contentOf_append_of_ne (h : ∀ e ∈ new, key2shard e.args.key ≠ s) :
    contentOf (executed ++ new) s = contentOf executed s := by
  funext key
  unfold contentOf
  split
  · rename_i hkey
    exact valueOf_append_of_ne fun e he hek => h e he (hek ▸ hkey)
  · rfl

theorem contentOf_nil (s : ShardId) : contentOf [] s = fun _ => none := by
  funext key
  simp [contentOf, valueOf]

theorem contentOf_of_ne (h : ∀ e ∈ executed, key2shard e.args.key ≠ s) :
    contentOf executed s = fun _ => none := by
  rw [← List.nil_append executed, contentOf_append_of_ne h, contentOf_nil]

theorem contentOf_concat (executed : List Executed) (e : Executed) :
    contentOf (executed ++ [e]) (key2shard e.args.key) =
      Function.update (contentOf executed (key2shard e.args.key)) e.args.key
        (e.args.effect (contentOf executed (key2shard e.args.key) e.args.key)) := by
  funext key
  unfold contentOf
  by_cases hkey : key = e.args.key
  · subst hkey
    rw [Function.update_self, if_pos rfl, if_pos rfl, valueOf_concat, if_pos rfl]
  · rw [Function.update_of_ne hkey, valueOf_concat, if_neg (Ne.symm hkey)]

/-! ## Copies of a shard -/

/-- The copy of the shard in this state is the part of the one map, and the table knows every write
on it. -/
structure UpToDate (executed : List Executed) (s : ShardId) (kv : ShardKV) : Prop where
  content : kv.content s = contentOf executed s
  table : ∀ e ∈ executed, e.args.op ≠ .get → key2shard e.args.key = s →
    kv.isDuplicateRequest e.args.clientId e.args.commandId

namespace UpToDate

theorem append (h : UpToDate executed s kv) (hnew : ∀ e ∈ new, key2shard e.args.key ≠ s) :
    UpToDate (executed ++ new) s kv := by
  refine ⟨by rw [contentOf_append_of_ne hnew, h.content], fun e he hop hs => ?_⟩
  rcases List.mem_append.1 he with he | he
  · exact h.table e he hop hs
  · exact absurd hs (hnew e he)

/-- Nothing has been executed on the shard, and the copy is empty. -/
theorem of_untouched (hcontent : kv.content s = fun _ => none)
    (h : ∀ e ∈ executed, key2shard e.args.key ≠ s) : UpToDate executed s kv :=
  ⟨by rw [hcontent, contentOf_of_ne h], fun e he _ hs => absurd hs (h e he)⟩

theorem of_content (h : UpToDate executed s kv) {kv' : ShardKV}
    (hcontent : kv'.content s = kv.content s) (hlater : Later kv kv') : UpToDate executed s kv' :=
  ⟨by rw [hcontent, h.content], fun e he hop hs => hlater.table _ _ (h.table e he hop hs)⟩

theorem execute (h : UpToDate executed (key2shard args.key) kv) (hex : kv.Executes args)
    {reply : CommandReply} :
    UpToDate (executed ++ [⟨g, args, reply⟩]) (key2shard args.key) (kv.applyOperation args).1 := by
  constructor
  · rw [applyOperation_of_executes hex, ShardKV.content, remember_stateMachine,
      applyLogToStateMachine_fst, setShard_self, contentOf_concat, ← h.content]
    rfl
  · intro e he hop hs
    rcases List.mem_append.1 he with he | he
    · have hdup : (kv.apply (.operation args)).1.isDuplicateRequest _ _ :=
        isDuplicateRequest_apply (h.table e he hop hs)
      exact hdup
    · rw [List.mem_singleton] at he
      subst he
      rw [applyOperation_of_executes hex, remember, if_pos hop]
      simp [isDuplicateRequest, isDuplicate]

/-- A key of the shard has the value of the one map. -/
theorem value (h : UpToDate executed s kv) (hkey : key2shard key = s) :
    (kv.stateMachine s).kv key = valueOf executed key := by
  have hcontent := congrFun h.content key
  rwa [contentOf, if_pos hkey] at hcontent

/-- A `Get` returns the value of the one map. -/
theorem read (h : UpToDate executed (key2shard args.key) kv) (hex : kv.Executes args)
    (hop : args.op = .get) :
    (kv.applyOperation args).2 = readReply (valueOf executed args.key) := by
  rw [applyOperation_of_executes hex, applyLogToStateMachine_get hop, Shard.get, h.value rfl]
  rcases valueOf executed args.key with _ | value <;> rfl

end UpToDate

/-! ## Where the copies are -/

/-- The entry executes an operation on the shard. -/
def Touches (kv : ShardKV) (command : Command) (s : ShardId) : Prop :=
  ∃ args, command = .operation args ∧ kv.Executes args ∧ key2shard args.key = s

theorem execution_of_executes (hex : kv.Executes args) :
    Groups.execution g kv (.operation args) = [⟨g, args, (kv.applyOperation args).2⟩] := by
  rw [Groups.execution, if_pos hex]

theorem mem_execution {e : Executed} (he : e ∈ Groups.execution g kv command) :
    ∃ args, command = .operation args ∧ kv.Executes args ∧
      e = ⟨g, args, (kv.applyOperation args).2⟩ := by
  cases command with
  | operation args =>
    rw [Groups.execution] at he
    split at he
    · rename_i hex
      exact ⟨args, rfl, hex, List.mem_singleton.1 he⟩
    · cases he
  | configuration | insertShards | deleteShards | emptyShards => cases he

theorem execution_of_not_touches (h : ¬ Touches kv command s) :
    ∀ e ∈ Groups.execution g kv command, key2shard e.args.key ≠ s := by
  intro e he hs
  obtain ⟨args, rfl, hex, rfl⟩ := mem_execution he
  exact h ⟨args, rfl, hex, hs⟩

/-- An entry that does not touch the shard keeps a copy that is neither waited for nor given
away. -/
theorem UpToDate.apply (h : UpToDate executed s kv) (ht : ¬ Touches kv command s)
    (hp : kv.status s ≠ .pulling) (hb : kv.status s ≠ .bePulling)
    (hch : Change kv command s ((kv.apply command).1.stateMachine s)) :
    UpToDate executed s (kv.apply command).1 := by
  refine h.of_content ?_ (Later.apply kv command)
  rw [ShardKV.content]
  generalize (kv.apply command).1.stateMachine s = shard at hch
  cases hch with
  | same => rfl
  | write hex => exact absurd ⟨_, rfl, hex, rfl⟩ ht
  | insert _ _ hs => exact absurd hs hp
  | collect => rfl
  | delete _ _ hs => exact absurd hs hb

structure Contents (cf : MemoryConfigStateMachine) (G : Groups) : Prop where
  held : ∀ {g s}, holder cf s (G.group g).num = some g → (G.group g).status s ≠ .pulling →
    UpToDate G.executed s (G.group g)
  frozen : ∀ {g s kv b}, G.Visited g kv → kv.status s = .bePulling →
    owner cf s kv.num = some b → Obtained kv.num s (G.group b) ∨ UpToDate G.executed s kv
  fresh : ∀ s, (∀ n g, holder cf s n = some g → ¬ Obtained n s (G.group g)) →
    ∀ e ∈ G.executed, key2shard e.args.key ≠ s
  reads : ReadsLast G.executed

namespace Contents

theorem init (cf : MemoryConfigStateMachine) : Contents cf Groups.init := by
  constructor
  · intro g s hg _
    -- in the first configuration nobody holds anything
    have h0 : holder cf s 0 = none := by
      rw [holder, owner_of_config cf.head]
      rfl
    have hg' : holder cf s 0 = some g := hg
    rw [h0] at hg'
    cases hg'
  · rintro g s kv b ⟨k, rfl⟩ hst -
    have hnew : Groups.init.replica g k = new g := by
      simp [Groups.replica, Groups.init]
    rw [hnew] at hst
    cases hst
  · intro s _ e he
    cases he
  · intro i e he
    cases he

/-- The group that serves a shard has an up-to-date copy of it. -/
theorem of_canServe (h : Contents cf G) (hI : Inv cf G) (hs : (G.group g).canServe s) :
    UpToDate G.executed s (G.group g) := by
  obtain ⟨hg, hob⟩ := hI.holder_of_canServe hs
  rcases hob with hlt | ⟨-, hp⟩
  · exact absurd hlt (Nat.lt_irrefl _)
  · exact h.held hg hp

theorem canServe_of_touches (h : Touches kv command s) : kv.canServe s := by
  obtain ⟨args, -, hex, rfl⟩ := h
  exact hex.1

/-- A group that waits for a shard gets an up-to-date copy. -/
theorem of_insert (h : Contents cf G) (hI : Inv cf G) {shardsInfo : ShardOperationReply}
    {data : Key → Option Value} (ho : Origin cf G g (.insertShards shardsInfo))
    (hnum : shardsInfo.configNum = (G.group g).num) (hmem : (s, data) ∈ shardsInfo.shards)
    (hp : (G.group g).status s = .pulling) :
    ∃ kv, data = kv.content s ∧ shardsInfo.lastOperations = kv.lastOperations ∧
      UpToDate G.executed s kv := by
  obtain ⟨n, a, kv, hn, -, hv, hkv, hst, hdata, htable⟩ := hI.frozen_source ho hnum hmem hp
  refine ⟨kv, hdata, htable, ?_⟩
  obtain ⟨m, c, hm, -, hg, -⟩ := (hI.group g).taking s (.inl hp)
  rw [← hm, hn, ← hkv] at hg
  rcases h.frozen hv hst hg with (hlt | ⟨-, hob⟩) | hup
  · omega
  · exact absurd hp hob
  · exact hup

/-- The copy of the group that commits the entry. -/
theorem held_self (h : Contents cf G) (hI : Inv cf G) (hret : Returns cf)
    (ho : Origin cf G g command) (ht : ¬ Touches (G.group g) command s)
    (hg : holder cf s ((G.group g).apply command).1.num = some g)
    (hp : ((G.group g).apply command).1.status s ≠ .pulling) :
    UpToDate G.executed s ((G.group g).apply command).1 := by
  have hL := hI.group g
  rcases apply_cases (G.group g) command with ⟨next, rfl, hnext⟩ | ⟨hcur, -, hchange⟩
  · obtain ⟨hs, hc⟩ := ho.settled hnext
    rw [num_apply_configuration hnext] at hg
    have hserving : (G.group g).status s ≠ .pulling := by rw [hs s]; decide
    suffices hup : UpToDate G.executed s (G.group g) from
      hup.of_content (content_apply_configuration hnext s) (Later.apply _ _)
    rcases hold : holder cf s (G.group g).num with _ | a
    · -- the first holder: nobody has written to the shard, and the copy is empty
      refine UpToDate.of_untouched (hL.blank hret s (.inr ⟨hs s, by simp [hold]⟩)) ?_
      exact h.fresh s fun n b hb => (hI.succession hret s).untouched hold hg le_rfl hb
    · by_cases hag : a = g
      · subst hag
        exact h.held hold hserving
      · -- a shard of another group is pulled first
        exfalso
        obtain ⟨ha, hb⟩ := owner_of_holder_ne hret hold hg hag
        rcases hL.status_cases hs hc s with ⟨hst, -⟩ | ⟨-, b, hown, -⟩ | ⟨-, hkeep, -⟩
        · exact hp hst
        · rw [ha, Option.some.injEq] at hown
          exact hag hown
        · exact hag (hkeep a ha hb)
  · have hnum : ((G.group g).apply command).1.num = (G.group g).num := by rw [num, num, hcur]
    rw [hnum] at hg
    by_cases hpull : (G.group g).status s = .pulling
    · -- the entry inserts the shard
      obtain ⟨info, data, rfl, hn, hmem, hshard⟩ := (hchange s).insert_of_pulling hpull hp
      obtain ⟨kv, hdata, htable, hup⟩ := h.of_insert hI ho hn hmem hpull
      constructor
      · rw [ShardKV.content, hshard, ← hup.content, ← hdata]
        exact hL.putAll_of_pulling hret hpull data
      · intro e he hop hs
        have hdup := hup.table e he hop hs
        simp only [ShardKV.apply, applyInsertShards, if_pos hn]
        refine isDuplicate_mergeOperations.2 (.inr ?_)
        rw [htable]
        exact hdup
    · refine (h.held hg hpull).apply ht hpull (fun hb => ?_) (hchange s)
      obtain ⟨n, b, hn, -, hb', hne⟩ := hL.giving s hb
      rw [hn, holder_of_owner hb', Option.some.injEq] at hg
      exact hne hg.symm

theorem held_commit (h : Contents cf G) (hI : Inv cf G) (hret : Returns cf)
    (ho : Origin cf G g command) {g' : Gid}
    (hg : holder cf s ((G.commit g command).group g').num = some g')
    (hp : ((G.commit g command).group g').status s ≠ .pulling) :
    UpToDate (G.commit g command).executed s ((G.commit g command).group g') := by
  by_cases hgg : g' = g
  · subst hgg
    rw [Groups.group_commit_self] at hg hp ⊢
    by_cases ht : Touches (G.group g') command s
    · have hup := h.of_canServe hI (canServe_of_touches ht)
      obtain ⟨args, rfl, hex, rfl⟩ := ht
      rw [Groups.commit, execution_of_executes hex]
      exact hup.execute hex
    · exact (h.held_self hI hret ho ht hg hp).append (execution_of_not_touches ht)
  · rw [Groups.group_commit_of_ne hgg] at hg hp ⊢
    refine (h.held hg hp).append (execution_of_not_touches fun ht => hgg ?_)
    -- two groups would hold the shard
    obtain ⟨hg₁, hob₁⟩ := hI.holder_of_canServe (canServe_of_touches ht)
    exact (hI.succession hret s).unique hg (.inr ⟨rfl, hp⟩) hg₁ hob₁

theorem frozen_commit (h : Contents cf G) (hI : Inv cf G) (hret : Returns cf)
    (ho : Origin cf G g command) {g' b : Gid} (hv : (G.commit g command).Visited g' kv)
    (hst : kv.status s = .bePulling) (hb : owner cf s kv.num = some b) :
    Obtained kv.num s ((G.commit g command).group b) ∨
      UpToDate (G.commit g command).executed s kv := by
  have hlater := G.later_commit g command b
  rcases Groups.visited_commit.1 hv with hv | ⟨rfl, rfl⟩
  · rcases h.frozen hv hst hb with hob | hup
    · exact .inl (hob.later hlater)
    · by_cases ht : Touches (G.group g) command s
      · -- somebody serves the shard, so the handover is over
        left
        obtain ⟨n, b', hn, ha, hb', -⟩ := (hI.states hv).giving s hst
        rw [hn, hb', Option.some.injEq] at hb
        subst hb
        obtain ⟨hg₁, hob₁⟩ := hI.holder_of_canServe (canServe_of_touches ht)
        have hob := (hI.succession hret s).finished hg₁ hob₁ (holder_of_owner ha)
          (holder_of_owner hb') (hn ▸ hv.later.num_le)
        exact hn ▸ hob.later hlater
      · exact .inr (hup.append (execution_of_not_touches ht))
  · -- the state after the entry
    have hL := hI.group g'
    have ht : ¬ Touches (G.group g') command s := by
      rintro ⟨args, rfl, hex, rfl⟩
      have hshard := (change_operation (G.group g') args (key2shard args.key)).frozen hst
      have hst' : (G.group g').status (key2shard args.key) = .bePulling := by
        rw [status, ← hshard]
        exact hst
      rcases hex.1.2 with hs | hs <;> rw [hst'] at hs <;> cases hs
    rcases apply_cases (G.group g') command with ⟨next, rfl, hnext⟩ | ⟨hcur, -, hchange⟩
    · obtain ⟨hs, hc⟩ := ho.settled hnext
      have hup : UpToDate G.executed s (G.group g') := by
        refine h.held ?_ (by rw [hs s]; decide)
        rcases hL.status_cases hs hc s with ⟨hst', -⟩ | ⟨-, b', hg, -⟩ | ⟨hst', -⟩
        · simp [hst'] at hst
        · exact holder_of_owner hg
        · simp [hst'] at hst
      refine .inr (UpToDate.append ?_ (execution_of_not_touches ht))
      exact hup.of_content (content_apply_configuration hnext s) (Later.apply _ _)
    · have hshard := (hchange s).frozen hst
      have hnum : ((G.group g').apply command).1.num = (G.group g').num := by
        rw [num, num, hcur]
      have hst' : (G.group g').status s = .bePulling := by
        rw [status, ← hshard]
        exact hst
      rw [hnum] at hb ⊢
      rcases h.frozen (G.visited_group g') hst' hb with hob | hup
      · exact .inl (hob.later hlater)
      · refine .inr (UpToDate.append ?_ (execution_of_not_touches ht))
        exact hup.of_content (by rw [ShardKV.content, hshard]) (Later.apply _ _)

theorem fresh_commit (h : Contents cf G) (hI : Inv cf G)
    (hnone : ∀ n g', holder cf s n = some g' → ¬ Obtained n s ((G.commit g command).group g')) :
    ∀ e ∈ (G.commit g command).executed, key2shard e.args.key ≠ s := by
  have hold : ∀ n g', holder cf s n = some g' → ¬ Obtained n s (G.group g') :=
    fun n g' hg' hob => hnone n g' hg' (hob.later (G.later_commit g command g'))
  intro e he
  rcases List.mem_append.1 he with he | he
  · exact h.fresh s hold e he
  · refine execution_of_not_touches (fun ht => ?_) e he
    obtain ⟨hg, hob⟩ := hI.holder_of_canServe (canServe_of_touches ht)
    exact hold _ g hg hob

theorem reads_commit (h : Contents cf G) (hI : Inv cf G) :
    ReadsLast (G.commit g command).executed := by
  intro i e he hop
  change (G.executed ++ Groups.execution g (G.group g) command)[i]? = some e at he
  change e.reply = readReply (valueOf ((G.executed ++ _).take i) e.args.key)
  rcases Nat.lt_or_ge i G.executed.length with hi | hi
  · rw [List.getElem?_append_left hi] at he
    rw [List.take_append_of_le_length hi.le]
    exact h.reads i e he hop
  · -- the operation of this entry
    rw [List.getElem?_append_right hi] at he
    obtain ⟨args, rfl, hex, rfl⟩ := mem_execution (List.mem_of_getElem? he)
    rw [execution_of_executes hex] at he ⊢
    have hi' : i = G.executed.length := by
      obtain ⟨hlt, -⟩ := List.getElem?_eq_some_iff.1 he
      simp only [List.length_singleton] at hlt
      omega
    rw [hi', List.take_left']
    · exact (h.of_canServe hI hex.1).read hex hop
    · rfl

theorem commit (h : Contents cf G) (hI : Inv cf G) (hret : Returns cf)
    (ho : Origin cf G g command) : Contents cf (G.commit g command) :=
  ⟨h.held_commit hI hret ho, h.frozen_commit hI hret ho, fun _ => h.fresh_commit hI,
    h.reads_commit hI⟩

theorem of_run (hret : Returns cf) {st : Store} {as : List Store.Action}
    (h : run (Store.step cf) Store.init as = some st) : Contents cf st.groups := by
  have hboth : Inv cf st.groups ∧ Contents cf st.groups :=
    Store.groups_induction (P := fun G => Inv cf G ∧ Contents cf G)
      ⟨Inv.init cf, Contents.init cf⟩
      (fun _ _ _ hG ho => ⟨hG.1.commit ho, hG.2.commit hG.1 hret ho⟩) h
  exact hboth.2

end Contents

/-! ## Reads return the last write -/

/-- **The sharded store is one map.** If an unassigned shard goes back to the group that held it
last, every `Get` that a group executes returns the fold of all writes on its key that any group
has executed before. -/
theorem get_eq_valueOf (hcf : Returns cf) {as : List Store.Action} {st : Store}
    (hrun : run (Store.step cf) Store.init as = some st) : ReadsLast st.groups.executed :=
  (Contents.of_run hcf hrun).reads

/-- The only group leaves, and another one joins. -/
def replaceOps : List ShardCtrler.Op :=
  [.join (Finmap.singleton 1 ["a"]), .leave [1], .join (Finmap.singleton 2 ["b"])]

/-- A write at group 1, whose shard then moves to group 2, another write there and a read. -/
def movedReads : List Store.Action :=
  handoffRun ++ [Store.Action.operation group2 ⟨[0], [8], .append, 1, 1⟩,
    Store.Action.operation group2 ⟨[0], [], .get, 2, 0⟩]

theorem get_eq_valueOf_movedReads :
    ∃ cf st, configsOf handoffOps = some cf ∧
      run (Store.step cf) Store.init movedReads = some st ∧
      st.groups.executed.map (fun e => (e.gid, e.reply)) =
        [(group1, ⟨.ok, []⟩), (group2, ⟨.ok, []⟩), (group2, ⟨.ok, [7, 8]⟩)] ∧
      ReadsLast st.groups.executed := by
  have h : ∃ cf, configsOf handoffOps = some cf ∧ Returns cf ∧
      ∃ st, run (Store.step cf) Store.init movedReads = some st ∧
        st.groups.executed.map (fun e => (e.gid, e.reply)) =
          [(group1, ⟨.ok, []⟩), (group2, ⟨.ok, []⟩), (group2, ⟨.ok, [7, 8]⟩)] := by
    decide +kernel
  obtain ⟨cf, hcf, hret, st, hst, hreplies⟩ := h
  exact ⟨cf, st, hcf, hst, hreplies, get_eq_valueOf hret hst⟩

/-- A write at group 1, and a read at group 2, which has gone on to the last configuration. -/
def replaceRun : List Store.Action :=
  advance group1 0 1 ++ [Store.Action.operation group1 ⟨[0], [7], .put, 1, 0⟩] ++
    advance group2 1 3 ++ [Store.Action.operation group2 ⟨[0], [], .get, 2, 0⟩]

/-- Without the condition an executed write can be lost: group 2 gets the unassigned shard without
a pull, and does not find the key that group 1 has written. -/
theorem get_eq_valueOf_fails :
    ∃ cf st, configsOf replaceOps = some cf ∧
      run (Store.step cf) Store.init replaceRun = some st ∧ ¬ ReadsLast st.groups.executed := by
  have h : ∃ cf, configsOf replaceOps = some cf ∧
      ∃ st, run (Store.step cf) Store.init replaceRun = some st ∧ st.groups.executed =
        [⟨group1, ⟨[0], [7], .put, 1, 0⟩, ⟨.ok, []⟩⟩,
          ⟨group2, ⟨[0], [], .get, 2, 0⟩, ⟨.errNoKey, []⟩⟩] := by
    decide +kernel
  obtain ⟨cf, hcf, st, hst, hexec⟩ := h
  refine ⟨cf, st, hcf, hst, fun hreads => ?_⟩
  rw [hexec] at hreads
  have hread := hreads 1 _ rfl rfl
  revert hread
  decide

end DistSys.ShardKV
