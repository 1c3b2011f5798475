import DistSys.Lib.Linked
import DistSys.Raft.Election

/-!
# The record of entries

A real entry is one above `lastIncludedIndex`; what stands at position 0 of `rf.log` is a
placeholder, and after `InstallSnapshot` its term may be wrong. The invariant therefore speaks of
the terms that logs *show*: for each real entry, index and term determine the command and the term
shown just below (`Linked`). Every handler keeps this, because `AppendEntries` compares shown terms
before it appends, and `Snapshot` and `InstallSnapshot` cut the log at an entry or empty it.

That an index and a term are used for one entry only comes from Election Safety: the entries of a
term are created by its leader, above all it has created before.

Main result: `Matched.act`, every action keeps the invariant. Slices that are overwritten before
they are sent are the subject of `Slices`.
-/

namespace DistSys

open Raft

variable {n : ℕ} {C : Type} [Inhabited C]

namespace Raft

/-- The entries of a message, on top of the entry that it expects below them. -/
def AppendEntriesArgs.segment (args : AppendEntriesArgs n C) : List (LogEntry C) :=
  ⟨args.prevLogTerm, default⟩ :: args.entries

variable {rf : Raft n C} {o : ℕ → ℤ → Option (ℤ × LogEntry C)}

/-- Accepting a message leaves the log alone, or replaces what follows an entry that shows the term
which the message has there. -/
theorem mergedLog_splice {args : AppendEntriesArgs n C} {prev : LogEntry C}
    (hprev : rf.logAt args.prevLogIndex = some prev) (hterm : prev.term = args.prevLogTerm) :
    rf.mergedLog args = rf.log ∨ ∃ i j p p', rf.log[i]? = some p ∧ args.segment[j]? = some p' ∧
      p.term = p'.term ∧ rf.lastIncludedIndex + i = args.prevLogIndex + j ∧
      rf.mergedLog args = rf.log.take (i + 1) ++ args.segment.drop (j + 1) := by
  obtain ⟨hle, hprev⟩ := logAt_eq_some.1 hprev
  have hlt := (List.getElem?_eq_some_iff.1 hprev).1
  rw [mergedLog, insertAt]
  generalize hm : args.prevLogIndex - rf.lastIncludedIndex = m at *
  have hr : m + 1 ≤ rf.log.length := hlt
  rcases mergeEntries_cases hr args.entries with ⟨heq, -⟩ | ⟨j, hj, -, hag, -, heq⟩
  · exact Or.inl heq
  · -- the entry below the first new one shows the term that the message expects there
    have hbelow : ∃ p p', rf.log[m + j]? = some p ∧ args.segment[j]? = some p' ∧
        p.term = p'.term := by
      cases j with
      | zero => exact ⟨prev, _, hprev, rfl, hterm⟩
      | succ j =>
        have he := List.getElem?_eq_getElem (Nat.lt_of_succ_lt hj)
        obtain ⟨e', he', hee⟩ := hag j _ (Nat.lt_succ_self j) he
        exact ⟨e', _, by rwa [show m + (j + 1) = m + 1 + j by omega], he, hee⟩
    obtain ⟨p, p', hp, hp', hpp⟩ := hbelow
    refine Or.inr ⟨m + j, j, p, p', hp, hp', hpp, by omega, ?_⟩
    rw [heq, AppendEntriesArgs.segment, List.drop_succ_cons,
      show m + j + 1 = m + 1 + j by omega]

/-- What `doLeader` sends is the end of the leader's log. -/
theorem segment_of_doLeaderFor {i : Fin n} {args : AppendEntriesArgs n C}
    (hargs : rf.doLeaderFor i = some (i, .sendAppendEntries args)) :
    args.term = rf.currentTerm ∧ ∃ k prev, args.prevLogIndex = rf.lastIncludedIndex + k ∧
      rf.log.drop k = prev :: args.entries ∧ prev.term = args.prevLogTerm := by
  rcases (doLeaderFor_eq_some hargs).2 with h | ⟨prev, hprev, h⟩
  · cases h
  · cases h
    obtain ⟨hle, hprev⟩ := logAt_eq_some.1 hprev
    refine ⟨rfl, rf.nextIndex i - 1 - rf.lastIncludedIndex, prev, ?_, ?_, rfl⟩
    · simp only
      omega
    · rw [List.drop_eq_getElem?_toList_append, hprev]
      rfl

/-- Accepting a linked message leaves a linked log. -/
theorem linked_mergedLog (h : Linked o rf.lastIncludedIndex rf.log) {args : AppendEntriesArgs n C}
    (hargs : Linked o args.prevLogIndex args.segment) {prev : LogEntry C}
    (hprev : rf.logAt args.prevLogIndex = some prev) (hterm : prev.term = args.prevLogTerm) :
    Linked o rf.lastIncludedIndex (rf.mergedLog args) := by
  rcases mergedLog_splice hprev hterm with heq | ⟨i, j, p, p', hp, hp', hpp, hidx, heq⟩
  · rwa [heq]
  · rw [heq]
    exact h.splice hargs hidx hp hp' hpp

/-- What `doLeader` sends is linked. -/
theorem linked_segment (h : Linked o rf.lastIncludedIndex rf.log) {i : Fin n}
    {args : AppendEntriesArgs n C} (hargs : rf.doLeaderFor i = some (i, .sendAppendEntries args)) :
    Linked o args.prevLogIndex args.segment := by
  obtain ⟨-, k, prev, hk, hdrop, hterm⟩ := segment_of_doLeaderFor hargs
  have hlinked := h.drop k
  rw [hdrop, ← hk] at hlinked
  exact hlinked.cons_congr hterm

theorem linked_installedLog (h : Linked o rf.lastIncludedIndex rf.log)
    (args : InstallSnapshotArgs n C) : Linked o args.lastIncludedIndex (rf.installedLog args) := by
  rcases installedLog_cases rf args with ⟨k, e, -, -, hk, heq⟩ | ⟨-, heq⟩
  · rw [heq, ← hk]
    exact h.drop k
  · rw [heq]
    exact linked_singleton _

end Raft

/-- The log of a leader does not get shorter in its term: it accepts no entries and no snapshot. -/
theorem Elected.lastLogIdx_le {c c' : Cluster n C} {g : History n} {a : Action n C}
    (he : Elected c g) (hstep : Cluster.Step c a c') {s : Fin n}
    (hl : (c'.servers s).state = .leader) :
    (c.servers s).lastLogIdx ≤ (c'.servers s).lastLogIdx := by
  have hsame : ∀ {rf : Raft n C}, SameLog (c.servers s) rf →
      (c.servers s).lastLogIdx ≤ rf.lastLogIdx := fun h => by
    rw [lastLogIdx, lastLogIdx, virtualLogIdx, virtualLogIdx, h.log, h.lastIncludedIndex]
  have hlog := hstep.logStep he.sound s
  generalize c'.servers s = rf at hlog hl ⊢
  cases hlog with
  | same _ h hterm => exact hsame h
  | start command =>
    rw [lastLogIdx, lastLogIdx, virtualLogIdx, virtualLogIdx]
    simp only [appendCommand, persist, List.length_append, List.length_singleton]
    omega
  | handle k call _ rpc ha hk hserver h =>
    subst hserver
    have hok := he.calls call (List.mem_of_getElem? hk)
    rcases Rpc.handle_cases h with ⟨args, reply, h₀, -, h⟩ | ⟨args, reply, -, -, h⟩ |
      ⟨-, -, rfl⟩ | ⟨args, reply, -, -, h⟩
    · have hadopt := sameLog_adoptTerm (c.servers call.server) args.term
      rcases appendEntries_cases h with ⟨rfl, -⟩ | ⟨-, -, rfl⟩ | ⟨hle, -, -, rfl⟩
      · exact le_rfl
      · exact hsame ⟨hadopt.log, hadopt.lastIncludedIndex, hadopt.lastIncludedTerm, hadopt.snapShot⟩
      · -- the request comes from another leader, so it has a newer term
        obtain ⟨ch, hch, -⟩ := acceptEntries_eq ((c.servers call.server).adoptTerm args.term) args
        have hleader := hok.rpc
        rw [h₀] at hleader
        have hne := he.term_ne_of_leader hleader hok.ne ((calm_appendEntries h).leader hl).1
        rw [hch, adoptTerm, if_pos (by omega)] at hl
        cases hl
    · exact hsame (sameLog_requestVote h)
    · exact le_rfl
    · have hcases := installSnapshot_cases (c.servers call.server) args
      rw [h] at hcases
      rcases hcases with rfl | ⟨-, rfl⟩
      · exact le_rfl
      · simp [install, persist] at hl
  | snapshot index data _ ha h =>
    rcases snapshot_cases h with rfl | ⟨hlow, -, e, hat, rfl⟩
    · exact le_rfl
    · have hlt := (List.getElem?_eq_some_iff.1 (logAt_eq_some.1 hat).2).1
      simp only [lastLogIdx, virtualLogIdx, compact, persist, List.length_drop]
      omega

/-- `s` leads the term `t`, and as long as it does its log goes up to the index `i` at least. -/
def Cluster.Within (c : Cluster n C) (g : History n) (s : Fin n) (i : ℕ) (t : ℤ) : Prop :=
  g.leader t = some s ∧ ((c.servers s).state = .leader → (c.servers s).currentTerm = t →
    i ≤ (c.servers s).lastLogIdx)

theorem Cluster.Within.act {c c' : Cluster n C} {g : History n} {s : Fin n} {i : ℕ} {t : ℤ}
    {a : Action n C} (h : c.Within g s i t) (he : Elected c g) (hstep : Cluster.Step c a c') :
    c'.Within (g.observe c') s i t := by
  refine ⟨History.observe_leader_of_some h.1 c', fun hl ht => ?_⟩
  rcases he.leader_step hstep hl with ⟨hl', hsame⟩ | hnone
  · exact (h.2 hl' (hsame ▸ ht)).trans (he.lastLogIdx_le hstep hl)
  · rw [ht, h.1] at hnone
    cases hnone

/-- The next index of a leader is not one that a leader of its term has reached. -/
theorem Cluster.Within.not_next {c : Cluster n C} {g : History n} {s r : Fin n}
    (he : Elected c g) (hl : (c.servers s).state = .leader) :
    ¬ c.Within g r ((c.servers s).virtualLogIdx (c.servers s).log.length)
      (c.servers s).currentTerm := by
  rintro ⟨hr, hbound⟩
  rw [he.led s hl, Option.some.injEq] at hr
  subst hr
  have hle := hbound hl rfl
  have hpos := List.length_pos_iff.2 (he.sound.log_ne_nil s)
  rw [lastLogIdx, virtualLogIdx, virtualLogIdx] at hle
  omega

theorem Cluster.Within.appendCommand {c c' : Cluster n C} {g : History n} {s : Fin n} {command : C}
    (he : Elected c g) (hl : (c.servers s).state = .leader)
    (hs : c'.servers s = (c.servers s).appendCommand command) :
    c'.Within (g.observe c') s ((c.servers s).virtualLogIdx (c.servers s).log.length)
      (c.servers s).currentTerm := by
  refine ⟨History.observe_leader_of_some (he.led s hl) c', fun _ _ => ?_⟩
  rw [hs, lastLogIdx, virtualLogIdx, virtualLogIdx]
  simp only [Raft.appendCommand, persist, List.length_append, List.length_singleton]
  omega

/-- The invariant of logs: every real entry is on record in `o`. -/
structure Matched (c : Cluster n C) (g : History n) (o : ℕ → ℤ → Option (ℤ × LogEntry C)) :
    Prop where
  logs : ∀ s, Linked o (c.servers s).lastIncludedIndex (c.servers s).log
  tasks : ∀ t ∈ c.tasks, ∀ args, t.task = .sendAppendEntries args →
    Linked o args.prevLogIndex args.segment
  calls : ∀ call ∈ c.calls, ∀ args reply, call.rpc = .appendEntries args reply →
    Linked o args.prevLogIndex args.segment
  /-- The entries of a term are created by its leader, which has not gone below them. -/
  origin : ∀ i t x, o i t = some x → ∃ s, c.Within g s i t
  starts : ∀ s i t command, .start s i t command ∈ c.trace →
    ∃ p, o i t = some (p, ⟨t, command⟩)

namespace Matched

variable {c c' : Cluster n C} {g : History n} {o : ℕ → ℤ → Option (ℤ × LogEntry C)}
  {a : Action n C}

theorem origin_act (hm : Matched c g o) (he : Elected c g) (hstep : Cluster.Step c a c') {i : ℕ}
    {t : ℤ} {x : ℤ × LogEntry C} (hx : o i t = some x) : ∃ s, c'.Within (g.observe c') s i t := by
  obtain ⟨s, hs⟩ := hm.origin i t x hx
  exact ⟨s, Cluster.Within.act hs he hstep⟩

/-- Steps that create no entry. -/
theorem keep (hm : Matched c g o) (he : Elected c g) (hstep : Cluster.Step c a c')
    (hlogs : ∀ s, Linked o (c'.servers s).lastIncludedIndex (c'.servers s).log)
    (htasks : ∀ t ∈ c'.tasks, ∀ args, t.task = .sendAppendEntries args →
      Linked o args.prevLogIndex args.segment)
    (hcalls : ∀ call ∈ c'.calls, ∀ args reply, call.rpc = .appendEntries args reply →
      Linked o args.prevLogIndex args.segment)
    (htrace : ∀ s i t command, .start s i t command ∈ c'.trace →
      .start s i t command ∈ c.trace) : Matched c' (g.observe c') o := by
  exact ⟨hlogs, htasks, hcalls, fun i t x hx => hm.origin_act he hstep hx,
    fun s i t command h => hm.starts s i t command (htrace s i t command h)⟩

theorem linked_of_sameLog (hm : Matched c g o) (hsame : ∀ s, SameLog (c.servers s) (c'.servers s))
    (s : Fin n) : Linked o (c'.servers s).lastIncludedIndex (c'.servers s).log := by
  rw [(hsame s).log, (hsame s).lastIncludedIndex]
  exact hm.logs s

theorem sameLog_set {s : Fin n} {rf : Raft n C} (h : SameLog (c.servers s) rf) (q : Fin n) :
    SameLog (c.servers q) ((c.set s rf).servers q) :=
  Cluster.forall_set (P := fun q rf => SameLog (c.servers q) rf) (fun _ => SameLog.refl _) h q

/-- Handling a request keeps the log linked. -/
theorem linked_handle (hm : Matched c g o) {k : ℕ} {call : Call n C} (hk : c.calls[k]? = some call)
    {rf : Raft n C} {rpc : Rpc n C}
    (h : call.rpc.handle (c.servers call.server) = some (rf, rpc)) :
    Linked o rf.lastIncludedIndex rf.log := by
  have hlink := hm.logs call.server
  have hsame : SameLog (c.servers call.server) rf → Linked o rf.lastIncludedIndex rf.log :=
    fun h => by
    rwa [h.log, h.lastIncludedIndex]
  rcases Rpc.handle_cases h with ⟨args, reply, h₀, -, h⟩ | ⟨args, reply, -, -, h⟩ |
    ⟨-, -, rfl⟩ | ⟨args, reply, -, -, h⟩
  · have hadopt := sameLog_adoptTerm (c.servers call.server) args.term
    rcases appendEntries_cases h with ⟨rfl, -⟩ | ⟨-, -, rfl⟩ | ⟨-, -, ⟨prev, hprev, hterm⟩, rfl⟩
    · exact hlink
    · exact hsame ⟨hadopt.log, hadopt.lastIncludedIndex, hadopt.lastIncludedTerm, hadopt.snapShot⟩
    · obtain ⟨ch, hch, -⟩ := acceptEntries_eq ((c.servers call.server).adoptTerm args.term) args
      have hmerged : ((c.servers call.server).adoptTerm args.term).mergedLog args =
          (c.servers call.server).mergedLog args := by
        rw [mergedLog, mergedLog, insertAt, insertAt, hadopt.log, hadopt.lastIncludedIndex]
      have :=
        linked_mergedLog hlink (hm.calls call (List.mem_of_getElem? hk) args none h₀) hprev hterm
      rw [hch]
      simpa only [persist, hmerged, hadopt.lastIncludedIndex] using this
  · exact hsame (sameLog_requestVote h)
  · exact hlink
  · have hcases := installSnapshot_cases (c.servers call.server) args
    rw [h] at hcases
    rcases hcases with rfl | ⟨-, rfl⟩
    · exact hlink
    · exact linked_installedLog hlink args

/-- `Snapshot` moves the start of the log up to one of its entries. -/
theorem linked_snapshot (hm : Matched c g o) {s : Fin n} {index : ℕ} {data : Data} {rf : Raft n C}
    (h : (c.servers s).snapshot index data = some rf) : Linked o rf.lastIncludedIndex rf.log := by
  rcases snapshot_cases h with rfl | ⟨hlow, -, e, -, rfl⟩
  · exact hm.logs s
  · have := (hm.logs s).drop (index - (c.servers s).lastIncludedIndex)
    rwa [Nat.add_sub_cancel' hlow.le] at this

/-- The record of one more entry. -/
def record (o : ℕ → ℤ → Option (ℤ × LogEntry C)) (i : ℕ) (p : ℤ) (e : LogEntry C) :
    ℕ → ℤ → Option (ℤ × LogEntry C) :=
  fun i' t => if i' = i ∧ t = e.term then some (p, e) else o i' t

omit [Inhabited C] in
theorem record_of_some {i : ℕ} {p : ℤ} {e : LogEntry C} (hnew : o i e.term = none) {j : ℕ} {t : ℤ}
    {x : ℤ × LogEntry C} (hx : o j t = some x) : record o i p e j t = some x := by
  rw [record, if_neg]
  · exact hx
  · rintro ⟨rfl, rfl⟩
    rw [hnew] at hx
    cases hx

/-- A leader's next index is not on record with its term. -/
theorem fresh (hm : Matched c g o) (he : Elected c g) {s : Fin n}
    (hl : (c.servers s).state = .leader) :
    o ((c.servers s).virtualLogIdx (c.servers s).log.length) (c.servers s).currentTerm = none := by
  rw [Option.eq_none_iff_forall_ne_some]
  intro x ho
  obtain ⟨r, hr⟩ := hm.origin _ _ x ho
  exact Cluster.Within.not_next he hl hr

/-- `Start` creates an entry at an index and term not used before. -/
theorem start (hm : Matched c g o) (he : Elected c g) {s : Fin n} {command : C}
    (hl : (c.servers s).state = .leader)
    (hc' : c' = ((c.set s ((c.servers s).appendCommand command)).emit
      [.start s ((c.servers s).virtualLogIdx (c.servers s).log.length)
        (c.servers s).currentTerm command]))
    (hstep : Cluster.Step c a c') :
    ∃ o', (∀ i t x, o i t = some x → o' i t = some x) ∧ Matched c' (g.observe c') o' := by
  have hfresh := hm.fresh he hl
  set rf := c.servers s
  obtain ⟨last, hlast⟩ : ∃ last, rf.log.getLast? = some last :=
    ⟨_, List.getLast?_eq_some_getLast (he.sound.log_ne_nil s)⟩
  let e : LogEntry C := ⟨rf.currentTerm, command⟩
  let i := rf.virtualLogIdx rf.log.length
  have hi : i = rf.lastIncludedIndex + rf.log.length := Nat.add_comm _ _
  have hmono : ∀ j t x, o j t = some x → record o i last.term e j t = some x :=
    fun _ _ _ => record_of_some hfresh
  have hself : c'.servers s = rf.appendCommand command := by
    rw [hc']
    simp only [Cluster.emit, Cluster.set, Function.update_self]
  have hne : ∀ {r}, r ≠ s → c'.servers r = c.servers r := fun hr => by
    rw [hc']
    simp only [Cluster.emit, Cluster.set, Function.update_of_ne hr]
  refine ⟨record o i last.term e, hmono, fun r => ?_, fun t ht args h => ?_,
    fun call hcall args reply h => ?_, fun j t x hx => ?_, fun r j t cmd h => ?_⟩
  · by_cases hr : r = s
    · subst hr
      rw [hself]
      refine ((hm.logs r).mono hmono).append hlast ?_
      rw [record, if_pos ⟨hi.symm, rfl⟩]
      rfl
    · rw [hne hr]
      exact (hm.logs r).mono hmono
  · subst hc'
    exact (hm.tasks t ht args h).mono hmono
  · subst hc'
    exact (hm.calls call hcall args reply h).mono hmono
  · by_cases hnew : j = i ∧ t = e.term
    · rw [hnew.1, hnew.2]
      exact ⟨s, .appendCommand he hl hself⟩
    · rw [record, if_neg hnew] at hx
      exact hm.origin_act he hstep hx
  · rw [hc', Cluster.emit] at h
    rcases List.mem_append.1 h with h | h
    · obtain ⟨p, hp⟩ := hm.starts r j t cmd h
      exact ⟨p, hmono _ _ _ hp⟩
    · cases List.mem_singleton.1 h
      exact ⟨last.term, if_pos ⟨rfl, rfl⟩⟩

/-- **The invariant is kept by every action**, with a record that only grows. -/
theorem act (hm : Matched c g o) (he : Elected c g) (hstep : Cluster.Step c a c') :
    ∃ o', (∀ i t x, o i t = some x → o' i t = some x) ∧ Matched c' (g.observe c') o' := by
  have hid : ∀ i t x, o i t = some x → o i t = some x := fun _ _ _ h => h
  have htasks : ∀ t ∈ c'.tasks, ∀ args, t.task = .sendAppendEntries args →
      Linked o args.prevLogIndex args.segment := by
    intro t ht args hargs
    rcases hstep.mem_tasks ht with ⟨old, hold, j, rfl, -⟩ | ⟨s, i, -, hsend, -⟩
    · exact hm.tasks old hold args hargs
    · rw [hargs] at hsend
      exact linked_segment (hm.logs s) hsend
  have hcalls : ∀ call ∈ c'.calls, ∀ args reply, call.rpc = .appendEntries args reply →
      Linked o args.prevLogIndex args.segment := by
    intro call hcall args reply hargs
    rcases hstep.mem_appendEntries hcall hargs with ⟨old, hold, reply', hold'⟩ | ⟨t, ht, htask⟩
    · exact hm.calls old hold args reply' hold'
    · exact hm.tasks t ht args htask
  have htrace : (∀ s command, a ≠ .start s command) → ∀ s i t command,
      .start s i t command ∈ c'.trace → .start s i t command ∈ c.trace :=
    fun ha s i t command h => (hstep.mem_start h).resolve_right fun hnew => ha s command hnew.1
  -- a step that creates no entry, and one that also leaves the logs alone
  have hlinked : (∀ s, Linked o (c'.servers s).lastIncludedIndex (c'.servers s).log) →
      (∀ s i t command, .start s i t command ∈ c'.trace → .start s i t command ∈ c.trace) →
      ∃ o', (∀ i t x, o i t = some x → o' i t = some x) ∧ Matched c' (g.observe c') o' :=
    fun hlogs htrace => ⟨o, hid, hm.keep he hstep hlogs htasks hcalls htrace⟩
  have hkeep : (∀ s, SameLog (c.servers s) (c'.servers s)) →
      (∀ s i t command, .start s i t command ∈ c'.trace → .start s i t command ∈ c.trace) →
      ∃ o', (∀ i t x, o i t = some x → o' i t = some x) ∧ Matched c' (g.observe c') o' :=
    fun hsame => hlinked (hm.linked_of_sameLog hsame)
  have hset : ∀ {s : Fin n} {rf : Raft n C}, Linked o rf.lastIncludedIndex rf.log → ∀ q,
      Linked o ((c.set s rf).servers q).lastIncludedIndex ((c.set s rf).servers q).log := fun h =>
    Cluster.forall_set (P := fun _ rf => Linked o rf.lastIncludedIndex rf.log) hm.logs h
  cases hstep with
  | idle => exact hkeep (fun _ => SameLog.refl _) fun _ _ _ _ h => h
  | start s command hl => exact hm.start he hl rfl (.start s command hl)
  | spawn a s gs hl hgs => exact hkeep (fun _ => SameLog.refl _) fun _ _ _ _ h => h
  | preVote s hl => exact hkeep (sameLog_set ⟨rfl, rfl, rfl, rfl⟩) fun _ _ _ _ h => h
  | election s rf args hcand h =>
    obtain ⟨rfl, -⟩ := beginElection_eq_some h
    exact hkeep (sameLog_set ⟨rfl, rfl, rfl, rfl⟩) fun _ _ _ _ h => h
  | dropTask k => exact hkeep (fun _ => SameLog.refl _) fun _ _ _ _ h => h
  | runTask k t rpc ht hep hl hrpc => exact hkeep (fun _ => SameLog.refl _) fun _ _ _ _ h => h
  | encode k t j ht hj => exact hkeep (fun _ => SameLog.refl _) fun _ _ _ _ h => h
  | deliver k call rf rpc hk h => exact hlinked (hset (hm.linked_handle hk h)) fun _ _ _ _ h => h
  | receive k call rf hk hw hep h =>
    exact hkeep (sameLog_set (Rpc.sameLog_finish h)) (htrace fun _ _ heq => by cases heq)
  | lose k call hk hep => exact hkeep (fun _ => SameLog.refl _) fun _ _ _ _ h => h
  | commitChecker s rf msg h =>
    exact hkeep (sameLog_set (sameLog_commitChecker h)) (htrace fun _ _ heq => by cases heq)
  | sendSnapshot s k msg h =>
    exact hkeep (sameLog_set ⟨rfl, rfl, rfl, rfl⟩) (htrace fun _ _ heq => by cases heq)
  | snapshot s index data rf h => exact hlinked (hset (hm.linked_snapshot h)) fun _ _ _ _ h => h
  | grow s => exact hkeep (sameLog_set ⟨rfl, rfl, rfl, rfl⟩) fun _ _ _ _ h => h
  | crash s =>
    have hsame := (he.sound.durable s).sameLog_make
    rw [he.sound.me s] at hsame
    exact hkeep (sameLog_set hsame) (htrace fun _ _ heq => by cases heq)

theorem init : Matched (Cluster.init : Cluster n C) History.init fun _ _ => none where
  logs s := linked_singleton _
  tasks t ht := by cases ht
  calls call h := by cases h
  origin i t x h := by cases h
  starts s i t command h := by cases h

end Matched

end DistSys
