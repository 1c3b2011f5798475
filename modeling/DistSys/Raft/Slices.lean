import DistSys.Raft.Matched
import DistSys.Raft.Merge

/-!
# Requests that share the array of the log

The entries of a request are a slice of the caller's log, and `Call` encodes them later and without
the lock. Until then `AppendEntries` and `Start` of the caller can write to the same array, and the
slice shows what they write: the race that note/lab3/lab3b.md reports. `NoOverwrite` excludes such a
write.

In a run without one every slice shows what the log had when the request was built. `Mirrored` says
that the log and a slice of its array agree where both have an entry, so reading the slice again
changes nothing (`Mirrored.refresh_eq`), and a step is just an action (`Intact.step_cases`). The
entries that `AppendEntries` writes need only have the terms that the slice shows: by the record of
entries they are then the same.

Main result: `Intact.run_induction`, what actions keep holds after every run that overwrites
nothing.
-/

namespace DistSys

open Raft

variable {n : ℕ} {C : Type} [Inhabited C]

namespace Raft

/-- The entry of a message at a global index. -/
def AppendEntriesArgs.entryAt (args : AppendEntriesArgs n C) (v : ℕ) : Option (LogEntry C) :=
  if args.prevLogIndex < v then args.entries[v - (args.prevLogIndex + 1)]? else none

/-- The entry at a global index that `Call` has still to read from the slice of the goroutine. -/
def Spawned.unread (t : Spawned n C) (v : ℕ) : Option (LogEntry C) :=
  match t.task with
  | .sendAppendEntries args =>
    if args.prevLogIndex + t.encoded.getD 0 < v then args.entryAt v else none
  | .handleInstallSnapshot => none

instance (rf : Raft n C) (args : AppendEntriesArgs n C) : Decidable (rf.Passes args) :=
  inferInstanceAs (Decidable (_ ∧ _))

/-- Where the handler writes entries that the goroutine has still to read, they have the same
terms. -/
def Rpc.Spares (rf : Raft n C) (t : Spawned n C) : Rpc n C → Prop
  | .appendEntries args none => rf.Passes args → ∀ i < args.entries.length,
      ∀ e ∈ args.entries[i]?, ∀ e' ∈ t.unread (args.prevLogIndex + 1 + i), e'.term = e.term
  | _ => True

instance (rf : Raft n C) (t : Spawned n C) : (rpc : Rpc n C) → Decidable (rpc.Spares rf t)
  | .appendEntries args none => inferInstanceAs (Decidable (rf.Passes args →
      ∀ i < args.entries.length, ∀ e ∈ args.entries[i]?,
        ∀ e' ∈ t.unread (args.prevLogIndex + 1 + i), e'.term = e.term))
  | .appendEntries _ (some _) | .requestVote _ _ | .preVote _ | .installSnapshot _ _ =>
    isTrue trivial

end Raft

namespace Cluster

/-- Nothing else is written over the entries of a request that has still to be encoded. -/
def NoOverwrite (c : Cluster n C) : Action n C → Prop
  | .start s _ => (c.servers s).state = .leader → ∀ t ∈ c.tasks, t.caller = s → c.Shares t →
      t.unread ((c.servers s).virtualLogIdx (c.servers s).log.length) = none
  | .deliver k => ∀ call ∈ c.calls[k]?, ∀ t ∈ c.tasks, t.caller = call.server → c.Shares t →
      call.rpc.Spares (c.servers call.server) t
  | _ => True

instance (c : Cluster n C) : (a : Action n C) → Decidable (c.NoOverwrite a)
  | .start s _ => inferInstanceAs (Decidable ((c.servers s).state = .leader →
      ∀ t ∈ c.tasks, t.caller = s → c.Shares t →
        t.unread ((c.servers s).virtualLogIdx (c.servers s).log.length) = none))
  | .deliver k => inferInstanceAs (Decidable (∀ call ∈ c.calls[k]?, ∀ t ∈ c.tasks,
      t.caller = call.server → c.Shares t → call.rpc.Spares (c.servers call.server) t))
  | .msgComing _ | .timeout _ | .task _ | .encode _ | .receive _ | .lose _ | .commitChecker _
  | .sendSnapshot _ _ | .snapshot _ _ _ | .grow _ | .crash _ => isTrue trivial

/-- Slices are of the array of the log or of an earlier one, which is not written to any more. -/
structure Dated (c : Cluster n C) : Prop where
  epoch_le : ∀ t ∈ c.tasks, t.epoch ≤ c.epoch t.caller
  array_le : ∀ t ∈ c.tasks, t.epoch = c.epoch t.caller → t.array ≤ (c.servers t.caller).array

/-- A log and the slices of its array agree. -/
structure Mirrored (c : Cluster n C) : Prop extends c.Dated where
  agree : ∀ t ∈ c.tasks, c.Shares t → ∀ v e e', (c.servers t.caller).logAt v = some e →
    t.unread v = some e' → e' = e

end Cluster

/-! ## What a slice shows -/

namespace Raft

variable {rf rf' : Raft n C}

omit [Inhabited C] in
theorem Spawned.unread_eq_some {t : Spawned n C} {v : ℕ} {e : LogEntry C}
    (h : t.unread v = some e) : ∃ args, t.task = .sendAppendEntries args ∧
      args.prevLogIndex + t.encoded.getD 0 < v ∧
      args.entries[v - (args.prevLogIndex + 1)]? = some e := by
  unfold unread at h
  split at h
  · rename_i args htask
    split at h
    · rename_i hv
      rw [AppendEntriesArgs.entryAt, if_pos (by omega)] at h
      exact ⟨args, htask, hv, h⟩
    · cases h
  · cases h

omit [Inhabited C] in
theorem Spawned.unread_entry {t : Spawned n C} {args : AppendEntriesArgs n C}
    (htask : t.task = .sendAppendEntries args) {j : ℕ} (hj : t.encoded.getD 0 ≤ j) :
    t.unread (args.prevLogIndex + 1 + j) = args.entries[j]? := by
  have hlt : args.prevLogIndex + t.encoded.getD 0 < args.prevLogIndex + 1 + j := by omega
  have hlt' : args.prevLogIndex < args.prevLogIndex + 1 + j := by omega
  simp only [unread, htask, if_pos hlt, AppendEntriesArgs.entryAt, if_pos hlt',
    Nat.add_sub_cancel_left]

omit [Inhabited C] in
/-- Encoding leaves less to read. -/
theorem Spawned.unread_of_encoded {t : Spawned n C} {j : Option ℕ}
    (hj : t.encoded.getD 0 ≤ j.getD 0) {v : ℕ} {e : LogEntry C}
    (h : ({ t with encoded := j } : Spawned n C).unread v = some e) : t.unread v = some e := by
  obtain ⟨args, htask, hv, he⟩ := unread_eq_some h
  have htask : t.task = .sendAppendEntries args := htask
  have hv : args.prevLogIndex + j.getD 0 < v := hv
  rw [show v = args.prevLogIndex + 1 + (v - (args.prevLogIndex + 1)) by omega,
    unread_entry htask (by omega)]
  exact he

theorem AppendEntriesArgs.reread_eq {args : AppendEntriesArgs n C} {encoded : ℕ}
    (h : ∀ j e e', encoded ≤ j → rf.logAt (args.prevLogIndex + 1 + j) = some e →
      args.entries[j]? = some e' → e' = e) : args.reread rf encoded = args := by
  have hentries : (args.entries.mapIdx fun j e =>
      if j < encoded then e else (rf.logAt (args.prevLogIndex + 1 + j)).getD e) = args.entries := by
    refine List.ext_getElem? fun j => ?_
    rw [List.getElem?_mapIdx]
    cases hj : args.entries[j]? with
    | none => rfl
    | some old =>
      rw [Option.map_some]
      split
      · rfl
      · rename_i hread
        cases hlog : rf.logAt (args.prevLogIndex + 1 + j) with
        | none => rfl
        | some e => rw [Option.getD_some, h j e old (Nat.not_lt.1 hread) hlog hj]
  rw [reread, hentries]

/-- Reading the same entries again changes nothing. -/
theorem Spawned.reread_eq {t : Spawned n C}
    (h : ∀ v e e', rf.logAt v = some e → t.unread v = some e' → e' = e) : t.reread rf = t := by
  unfold reread
  split
  · rename_i args htask
    have hargs : args.reread rf (t.encoded.getD 0) = args :=
      AppendEntriesArgs.reread_eq fun j e e' hread hlog he' =>
        h _ e e' hlog ((unread_entry htask hread).trans he')
    rw [hargs, ← htask]
  · rfl

/-- What a leader sends is in its log. -/
theorem logAt_of_doLeaderFor {i : Fin n} {t : Spawned n C}
    (hsend : rf.doLeaderFor i = some (i, t.task)) {v : ℕ} {e : LogEntry C}
    (h : t.unread v = some e) : rf.logAt v = some e := by
  obtain ⟨args, htask, hv, he⟩ := t.unread_eq_some h
  rw [htask] at hsend
  obtain ⟨-, k, prev, hk, hdrop, -⟩ := segment_of_doLeaderFor hsend
  have hat : (rf.log.drop k)[v - (args.prevLogIndex + 1) + 1]? = some e := by
    rw [hdrop, List.getElem?_cons_succ]
    exact he
  rw [List.getElem?_drop, show k + (v - (args.prevLogIndex + 1) + 1) = v - rf.lastIncludedIndex by
    omega] at hat
  rw [logAt_of_le (by omega)]
  exact hat

/-! ## What a step writes to the array -/

theorem SameLog.logAt (h : SameLog rf rf') (v : ℕ) : rf'.logAt v = rf.logAt v := by
  rw [Raft.logAt, Raft.logAt, realLogIdx, realLogIdx, h.log, h.lastIncludedIndex]

/-- Cutting the front of the log keeps its entries at their indices. -/
theorem logAt_of_drop {k v : ℕ} {e : LogEntry C}
    (hk : rf.lastIncludedIndex + k = rf'.lastIncludedIndex)
    (hlog : rf'.log = rf.log.drop k) (h : rf'.logAt v = some e) : rf.logAt v = some e := by
  obtain ⟨hle, hat⟩ := logAt_eq_some.1 h
  rw [hlog, List.getElem?_drop, show k + (v - rf'.lastIncludedIndex) = v - rf.lastIncludedIndex by
    omega] at hat
  exact logAt_eq_some.2 ⟨by omega, hat⟩

/-- An entry after an accepted request was there before or is one of the request. -/
theorem logAt_accepted_cases {args : AppendEntriesArgs n C} (h : rf.Passes args) {v : ℕ}
    {e : LogEntry C} (hv : (rf.accepted args).logAt v = some e) :
    rf.logAt v = some e ∨ ∃ i, v = args.prevLogIndex + 1 + i ∧ args.entries[i]? = some e := by
  obtain ⟨hle, hat⟩ := logAt_eq_some.1 hv
  rw [accepted_lastIncludedIndex] at hle hat
  rw [accepted_log] at hat
  rcases mergedLog_cases h with ⟨-, heq⟩ | ⟨j, hj, hlen, heq⟩
  · rw [heq] at hat
    exact Or.inl (logAt_eq_some.2 ⟨hle, hat⟩)
  · have hbase := lastIncludedIndex_le h
    rw [heq, List.getElem?_append, List.length_take, Nat.min_eq_left hlen] at hat
    split at hat
    · rename_i hlt
      rw [List.getElem?_take_of_lt hlt] at hat
      exact Or.inl (logAt_eq_some.2 ⟨hle, hat⟩)
    · rename_i hge
      rw [List.getElem?_drop] at hat
      rw [insertAt] at hat hge
      exact Or.inr ⟨v - (args.prevLogIndex + 1), by omega, by convert hat using 2; omega⟩

theorem array_adoptTerm (rf : Raft n C) (t : ℤ) : (rf.adoptTerm t).array = rf.array := by
  unfold adoptTerm
  split <;> rfl

theorem array_accepted (rf : Raft n C) (args : AppendEntriesArgs n C) :
    (rf.accepted args).array = rf.array := by
  obtain ⟨ch, heq⟩ := accepted_eq rf args
  rw [heq]
  exact array_adoptTerm rf args.term

theorem array_requestVote {args : RequestVoteArgs n} {reply : RequestVoteReply}
    (h : rf.requestVote args = some (rf', reply)) : rf'.array = rf.array := by
  rcases requestVote_cases h with ⟨rfl, -⟩ | ⟨-, rfl, -⟩ | ⟨-, -, -, rfl, -⟩ <;> rfl

theorem array_countVote (rf : Raft n C) : rf.countVote.array = rf.array := by
  rw [countVote]
  split <;> rfl

/-- Replies never touch the array. -/
theorem Rpc.array_finish {rpc : Rpc n C} {server : Fin n} (h : rpc.finish rf server = some rf') :
    rf'.array = rf.array := by
  rcases Rpc.finish_cases h with ⟨args, reply, -, h⟩ | ⟨args, reply, -, rfl⟩ |
    ⟨reply, -, rfl⟩ | ⟨args, reply, -, rfl⟩
  · rcases sendAppendEntries_cases h with ⟨next, rfl⟩ | ⟨-, rfl⟩ | ⟨-, -, h⟩
    · rfl
    · rfl
    · obtain ⟨N', ch, rfl, -⟩ := advanceCommit_frame h
      rfl
  · rcases sendRequestVote_cases rf args reply with h | ⟨-, -, h⟩ | ⟨-, -, -, h⟩
    · rw [h]
    · rw [h]
    · rw [h, array_countVote]
  · rcases sendPreVote_cases rf reply with h | ⟨-, r, -, h⟩
    · rw [h]
    · rw [h]
  · rcases handleInstallSnapshot_cases rf server reply with ⟨next, h⟩ | ⟨-, h⟩
    · rw [h]
    · rw [h]
      rfl

/-- From `rf` to `rf'` the server writes to the array of its log only what meets `P` at its index,
or it goes on with another array. -/
structure Writes (P : ℕ → LogEntry C → Prop) (rf rf' : Raft n C) : Prop where
  array_le : rf.array ≤ rf'.array
  logAt : rf'.array = rf.array → ∀ v e, rf'.logAt v = some e → rf.logAt v = some e ∨ P v e

variable {P : ℕ → LogEntry C → Prop}

theorem Writes.of_logAt (harray : rf'.array = rf.array)
    (hlog : ∀ v e, rf'.logAt v = some e → rf.logAt v = some e ∨ P v e) : Writes P rf rf' :=
  ⟨harray.ge, fun _ => hlog⟩

theorem Writes.of_sameLog (harray : rf'.array = rf.array) (hsame : SameLog rf rf') :
    Writes P rf rf' :=
  .of_logAt harray fun v e h => Or.inl (by rwa [hsame.logAt] at h)

theorem Writes.of_lt (h : rf.array < rf'.array) : Writes P rf rf' :=
  ⟨h.le, fun heq => absurd heq h.ne'⟩

theorem writes_appendCommand (command : C)
    (hP : P (rf.virtualLogIdx rf.log.length) ⟨rf.currentTerm, command⟩) :
    Writes P rf (rf.appendCommand command) := by
  refine .of_logAt rfl fun v e hv => ?_
  obtain ⟨hle, hat⟩ := logAt_eq_some.1 hv
  simp only [appendCommand, persist] at hle hat
  rcases Nat.lt_or_ge (v - rf.lastIncludedIndex) rf.log.length with hlt | hge
  · rw [List.getElem?_append_left hlt] at hat
    exact Or.inl (logAt_eq_some.2 ⟨hle, hat⟩)
  · have hlen := (List.getElem?_eq_some_iff.1 hat).1
    rw [List.length_append, List.length_singleton] at hlen
    have hidx : v = rf.virtualLogIdx rf.log.length := by
      rw [virtualLogIdx]
      omega
    rw [List.getElem?_append_right hge,
      show v - rf.lastIncludedIndex - rf.log.length = 0 by omega] at hat
    cases hat
    exact Or.inr (hidx ▸ hP)

theorem writes_snapshot {index : ℕ} {data : Data} (h : rf.snapshot index data = some rf') :
    Writes P rf rf' := by
  rcases snapshot_cases h with rfl | ⟨hlow, -, e, -, rfl⟩
  · exact .of_sameLog rfl (.refl _)
  · exact .of_logAt rfl fun v e hv => Or.inl (logAt_of_drop (Nat.add_sub_cancel' hlow.le) rfl hv)

theorem writes_installSnapshot (args : InstallSnapshotArgs n C) :
    Writes P rf (rf.installSnapshot args).1 := by
  rcases installSnapshot_cases rf args with h | ⟨-, h⟩
  · rw [h]
    exact .of_sameLog rfl (.refl _)
  · rw [h]
    rcases installedArray_cases rf args with ⟨harray, k, hk, hlog⟩ | harray
    · exact .of_logAt harray fun v e hv => Or.inl (logAt_of_drop hk hlog hv)
    · exact .of_lt (harray ▸ Nat.lt_succ_self _ : _ < rf.installedArray args)

theorem writes_appendEntries {args : AppendEntriesArgs n C} {reply : AppendEntriesReply}
    (h : rf.appendEntries args = some (rf', reply))
    (hP : rf.Passes args → ∀ i e, args.entries[i]? = some e → P (args.prevLogIndex + 1 + i) e) :
    Writes P rf rf' := by
  rcases appendEntries_eq rf args with ⟨hpass, heq⟩ | ⟨-, rf'', heq, hrf⟩
  · cases h.symm.trans heq
    refine .of_logAt (array_accepted rf args) fun v e hv => ?_
    rcases logAt_accepted_cases hpass hv with hv | ⟨i, rfl, he⟩
    · exact Or.inl hv
    · exact Or.inr (hP hpass i e he)
  · cases h.symm.trans heq
    rcases hrf with ⟨-, rfl⟩ | rfl
    · exact .of_sameLog rfl (.refl _)
    · have hsame := sameLog_adoptTerm rf args.term
      exact .of_sameLog (array_adoptTerm rf args.term)
        ⟨hsame.log, hsame.lastIncludedIndex, hsame.lastIncludedTerm, hsame.snapShot⟩

theorem Rpc.writes_handle {rpc rpc' : Rpc n C} (h : rpc.handle rf = some (rf', rpc'))
    (hP : ∀ args, rpc = .appendEntries args none → rf.Passes args →
      ∀ i e, args.entries[i]? = some e → P (args.prevLogIndex + 1 + i) e) : Writes P rf rf' := by
  rcases Rpc.handle_cases h with ⟨args, reply, hrpc, -, h⟩ | ⟨args, reply, -, -, h⟩ |
    ⟨-, -, rfl⟩ | ⟨args, reply, -, -, h⟩
  · exact writes_appendEntries h (hP args hrpc)
  · exact .of_sameLog (array_requestVote h) (sameLog_requestVote h)
  · exact .of_sameLog rfl (.refl _)
  · have hwrites : Writes P rf (rf.installSnapshot args).1 := writes_installSnapshot args
    rwa [h] at hwrites

end Raft

namespace Cluster

variable {c c' : Cluster n C} {a : Action n C}

/-- **What an action writes** to the array of the log of `q`, unless it restarts `q`: the command of
a `Start`, or entries of a request that `q` accepts. -/
theorem Step.writes {P : Fin n → ℕ → LogEntry C → Prop} (h : Step c a c')
    (hstart : ∀ s i command, a = .start s command → (c.servers s).state = .leader →
      i = (c.servers s).virtualLogIdx (c.servers s).log.length →
      .start s i (c.servers s).currentTerm command ∈ c'.trace →
      P s i ⟨(c.servers s).currentTerm, command⟩)
    (hdeliver : ∀ k call args, a = .deliver k → c.calls[k]? = some call →
      call.rpc = .appendEntries args none → (c.servers call.server).Passes args →
      ∀ i e, args.entries[i]? = some e → P call.server (args.prevLogIndex + 1 + i) e) (q : Fin n) :
    c.epoch q < c'.epoch q ∨
      c'.epoch q = c.epoch q ∧ Writes (P q) (c.servers q) (c'.servers q) := by
  have hrefl : ∀ q, Writes (P q) (c.servers q) (c.servers q) := fun q => .of_sameLog rfl (.refl _)
  have hset : ∀ {s : Fin n} {rf : Raft n C}, Writes (P s) (c.servers s) rf →
      c.epoch q < c.epoch q ∨
        c.epoch q = c.epoch q ∧ Writes (P q) (c.servers q) ((c.set s rf).servers q) := fun hs =>
    Or.inr ⟨rfl, forall_set (P := fun q rf => Writes (P q) (c.servers q) rf) hrefl hs q⟩
  cases h with
  | start s command hl =>
    exact hset (writes_appendCommand command
      (hstart s _ command rfl hl rfl (List.mem_append_right _ (List.mem_singleton_self _))))
  | preVote s hl => exact hset (.of_sameLog rfl ⟨rfl, rfl, rfl, rfl⟩)
  | election s rf args hcand hb =>
    obtain ⟨rfl, -⟩ := beginElection_eq_some hb
    exact hset (.of_sameLog rfl ⟨rfl, rfl, rfl, rfl⟩)
  | deliver k call rf rpc hk hr =>
    exact hset (Rpc.writes_handle hr fun args hargs => hdeliver k call args rfl hk hargs)
  | receive k call rf hk hw hep hr =>
    exact hset (.of_sameLog (Rpc.array_finish hr) (Rpc.sameLog_finish hr))
  | commitChecker s rf msg hr =>
    have hlog := sameLog_commitChecker hr
    obtain ⟨ch, applied, rfl⟩ := commitChecker_frame hr
    exact hset (.of_sameLog rfl hlog)
  | sendSnapshot s k msg hr => exact hset (.of_sameLog rfl ⟨rfl, rfl, rfl, rfl⟩)
  | snapshot s index data rf hr => exact hset (writes_snapshot hr)
  | grow s => exact hset (.of_lt (Nat.lt_succ_self _))
  | crash s =>
    by_cases hq : q = s
    · subst hq
      left
      simp only [restart, emit, Function.update_self]
      exact Nat.lt_succ_self _
    · right
      simp only [restart, emit, set, Function.update_of_ne hq]
      exact ⟨trivial, hrefl q⟩
  | _ => exact Or.inr ⟨rfl, hrefl q⟩

/-- Reading a slice again changes its entries at most. -/
theorem mem_refresh {t : Spawned n C} (ht : t ∈ c.refresh.tasks) : ∃ old ∈ c.tasks,
    (t = old ∨ c.Shares old ∧ t = old.reread (c.servers old.caller)) ∧
      t.caller = old.caller ∧ t.epoch = old.epoch ∧ t.array = old.array := by
  obtain ⟨old, hold, rfl⟩ := List.mem_map.1 ht
  refine ⟨old, hold, ?_⟩
  split
  · rename_i hshares
    refine ⟨Or.inr ⟨hshares, rfl⟩, ?_⟩
    unfold Spawned.reread
    split <;> exact ⟨rfl, rfl, rfl⟩
  · exact ⟨Or.inl rfl, rfl, rfl, rfl⟩

namespace Dated

theorem init : (Cluster.init : Cluster n C).Dated :=
  ⟨fun _ h => absurd h List.not_mem_nil, fun _ h => absurd h List.not_mem_nil⟩

/-- Arrays are not taken up again. -/
theorem array_step (hstep : Step c a c') (q : Fin n) : c.epoch q < c'.epoch q ∨
    c'.epoch q = c.epoch q ∧ (c.servers q).array ≤ (c'.servers q).array :=
  (hstep.writes (P := fun _ _ _ => True) (fun _ _ _ _ _ _ _ => trivial)
    (fun _ _ _ _ _ _ _ _ _ _ => trivial) q).imp_right fun h => ⟨h.1, h.2.array_le⟩

theorem act (h : c.Dated) (hstep : Step c a c') : c'.Dated := by
  refine ⟨fun t ht => ?_, fun t ht hepoch => ?_⟩
  · rcases hstep.mem_tasks ht with ⟨old, hold, j, rfl, -⟩ | ⟨s, i, -, -, heq, -, hep⟩
    · have hle := h.epoch_le old hold
      rcases array_step hstep old.caller with hlt | ⟨heq, -⟩
      · exact hle.trans hlt.le
      · exact hle.trans heq.ge
    · rw [heq, hep]
  · rcases hstep.mem_tasks ht with ⟨old, hold, j, rfl, -⟩ | ⟨s, i, -, -, heq, hservers, -⟩
    · have hle := h.epoch_le old hold
      rcases array_step hstep old.caller with hlt | ⟨heq, harray⟩
      · exact absurd (hepoch ▸ hlt) (Nat.not_lt.2 hle)
      · exact (h.array_le old hold (hepoch.trans heq)).trans harray
    · rw [heq, hservers]

theorem refresh (h : c.Dated) : c.refresh.Dated := by
  refine ⟨fun t ht => ?_, fun t ht => ?_⟩
  · obtain ⟨old, hold, -, hcaller, hepoch, -⟩ := mem_refresh ht
    rw [hcaller, hepoch]
    exact h.epoch_le old hold
  · obtain ⟨old, hold, -, hcaller, hepoch, harray⟩ := mem_refresh ht
    rw [hcaller, hepoch, harray]
    exact h.array_le old hold

/-- A slice of the array that the log has afterwards was one of the same array before. -/
theorem shares (h : c.Dated) (hstep : Step c a c') {t : Spawned n C} (ht : t ∈ c.tasks)
    {j : Option ℕ} (hshares : c'.Shares { t with encoded := j }) :
    c.Shares t ∧ c'.epoch t.caller = c.epoch t.caller ∧
      (c'.servers t.caller).array = (c.servers t.caller).array := by
  obtain ⟨hepoch, harray⟩ := hshares
  have hle := h.epoch_le t ht
  rcases array_step hstep t.caller with hlt | ⟨heq, harray'⟩
  · exact absurd (hepoch ▸ hlt) (Nat.not_lt.2 hle)
  · have hepoch' : t.epoch = c.epoch t.caller := hepoch.trans heq
    have hsame : (c'.servers t.caller).array = (c.servers t.caller).array :=
      Nat.le_antisymm (harray ▸ h.array_le t ht hepoch') harray'
    exact ⟨⟨hepoch', harray.trans hsame⟩, heq, hsame⟩

end Dated

end Cluster

/-- Where a slice and a request have entries of the same term, they have the same entry. -/
theorem Matched.unread_eq {c : Cluster n C} {g : History n}
    {o : ℕ → ℤ → Option (ℤ × LogEntry C)} (hm : Matched c g o) {t : Spawned n C} (ht : t ∈ c.tasks)
    {call : Call n C} (hcall : call ∈ c.calls) {args : AppendEntriesArgs n C}
    {reply : Option AppendEntriesReply} (hargs : call.rpc = .appendEntries args reply) {i : ℕ}
    {e e' : LogEntry C} (he : args.entries[i]? = some e)
    (he' : t.unread (args.prevLogIndex + 1 + i) = some e') (hterm : e'.term = e.term) : e' = e := by
  obtain ⟨args', htask, hv, he'⟩ := t.unread_eq_some he'
  obtain ⟨p, hp⟩ := (hm.calls call hcall args reply hargs).record (r := i) he
  obtain ⟨p', hp'⟩ := (hm.tasks t ht args' htask).record
    (r := args.prevLogIndex + 1 + i - (args'.prevLogIndex + 1)) he'
  rw [show args'.prevLogIndex + (args.prevLogIndex + 1 + i - (args'.prevLogIndex + 1)) + 1 =
    args.prevLogIndex + i + 1 by omega, show Termed.term e' = Termed.term e from hterm, hp] at hp'
  cases hp'
  rfl

namespace Cluster

variable {c c' : Cluster n C} {a : Action n C} {g : History n}
  {o : ℕ → ℤ → Option (ℤ × LogEntry C)}

namespace Mirrored

theorem init : (Cluster.init : Cluster n C).Mirrored :=
  ⟨.init, fun _ h => absurd h List.not_mem_nil⟩

theorem refresh_eq (h : c.Mirrored) : c.refresh = c := by
  have htasks : (c.tasks.map fun t => if c.Shares t then t.reread (c.servers t.caller) else t) =
      c.tasks := by
    refine (List.map_congr_left fun t ht => ?_).trans (List.map_id _)
    split
    · rename_i hshares
      exact Spawned.reread_eq (h.agree t ht hshares)
    · rfl
  rw [refresh, htasks]

/-- **Slices show the log as it was**, as long as nothing is written over them. -/
theorem act (h : c.Mirrored) (hm : Matched c g o) (hno : c.NoOverwrite a) (hstep : Step c a c') :
    c'.Mirrored := by
  -- what is written is not read any more, or is what is there
  have hwrites := hstep.writes (P := fun s v e => ∀ t ∈ c.tasks, t.caller = s → c.Shares t →
      ∀ e', t.unread v = some e' → e' = e)
    (fun s i command ha hl hi _ t ht hcaller hshares e' he' => by
      subst ha hi
      rw [hno hl t ht hcaller hshares] at he'
      cases he')
    (fun k call args ha hk hargs hpass i e he t ht hcaller hshares e' he' => by
      subst ha
      have hspares := hno call hk t ht hcaller hshares
      rw [hargs] at hspares
      have hterm := hspares hpass i (List.getElem?_eq_some_iff.1 he).1 e he e' he'
      exact hm.unread_eq ht (List.mem_of_getElem? hk) hargs he he' hterm)
  refine ⟨h.toDated.act hstep, fun t ht hshares v e e' he he' => ?_⟩
  rcases hstep.mem_tasks ht with ⟨old, hold, j, rfl, hj⟩ | ⟨s, i, -, hsend, heq, hservers, -⟩
  · obtain ⟨hshares, hepoch, harray⟩ := h.toDated.shares hstep hold hshares
    have hunread := Spawned.unread_of_encoded hj he'
    rcases hwrites old.caller with hlt | ⟨-, hwrites⟩
    · exact absurd hepoch hlt.ne'
    · rcases hwrites.logAt harray v e he with hlog | hfree
      · exact h.agree old hold hshares v e e' hlog hunread
      · exact hfree old hold rfl hshares e' hunread
  · have hat := logAt_of_doLeaderFor hsend he'
    rw [hservers, heq] at he
    exact Option.some.inj (hat.symm.trans he)

end Mirrored

/-- No slice has been overwritten, and every real entry is on record. -/
structure Intact (c : Cluster n C) : Prop where
  mirrored : c.Mirrored
  matched : ∃ g o, Elected c g ∧ Matched c g o

namespace Intact

theorem init : (Cluster.init : Cluster n C).Intact :=
  ⟨.init, _, _, Elected.init, Matched.init⟩

theorem act (h : c.Intact) (hno : c.NoOverwrite a) (hstep : Step c a c') : c'.Intact := by
  obtain ⟨g, o, he, hm⟩ := h.matched
  obtain ⟨o', -, hm'⟩ := hm.act he hstep
  exact ⟨h.mirrored.act hm hno hstep, _, o', he.act hstep, hm'⟩

/-- A step that overwrites nothing is just an action. -/
theorem act_eq (h : c.Intact) (hno : c.NoOverwrite a) (hstep : c.step a = some c') :
    c.act a = some c' := by
  obtain ⟨c₀, hact, rfl⟩ := Option.map_eq_some_iff.1 hstep
  rwa [(h.act hno (act_cases hact)).mirrored.refresh_eq]

theorem step_cases (h : c.Intact) (hno : c.NoOverwrite a) (hstep : c.step a = some c') :
    Step c a c' :=
  act_cases (h.act_eq hno hstep)

theorem step (h : c.Intact) (hno : c.NoOverwrite a) (hstep : c.step a = some c') : c'.Intact :=
  h.act hno (h.step_cases hno hstep)

/-- **Invariants of actions are invariants of runs that overwrite nothing.** -/
theorem run_induction {P : Cluster n C → Prop} {D : Cluster n C → Action n C → Prop}
    (hact : ∀ c a c', c.Intact → P c → D c a → Step c a c' → P c') {as : List (Action n C)}
    (hno : Along Cluster.step NoOverwrite c as) (hD : Along Cluster.step D c as)
    (hr : run Cluster.step c as = some c') (hc : c.Intact) (hP : P c) : c'.Intact ∧ P c' := by
  refine DistSys.run_induction (P := fun c => c.Intact ∧ P c) (fun c a c' hc hd hstep => ?_)
    (hno.and hD) hr ⟨hc, hP⟩
  have haction := hc.1.step_cases hd.1 hstep
  exact ⟨hc.1.act hd.1 haction, hact c a c' hc.1 hc.2 hd.2 haction⟩

/-- The same for invariants that every action keeps. -/
theorem run_invariant {P : Cluster n C → Prop}
    (hact : ∀ c a c', c.Intact → P c → Step c a c' → P c') {as : List (Action n C)}
    (hno : Along Cluster.step NoOverwrite c as) (hr : run Cluster.step c as = some c')
    (hc : c.Intact) (hP : P c) : c'.Intact ∧ P c' :=
  run_induction (D := fun _ _ => True) (fun c a c' hc hP _ => hact c a c' hc hP) hno
    (along_of_forall fun _ _ => trivial) hr hc hP

theorem of_run {as : List (Action n C)} (h : run Cluster.step Cluster.init as = some c)
    (hno : Along Cluster.step NoOverwrite Cluster.init as) : c.Intact :=
  DistSys.run_induction (fun _ _ _ hc hno hstep => hc.step hno hstep) hno h init

end Intact

end Cluster

end DistSys
